import JJS.Lit.Char

/-!
# JJS.Lit.White

White space: `lit_char_is_white_space` and `ecma_string_trim_front`.
-/

namespace JJS
namespace Lit

open Utf8

/-- `lit_unicode_white_space_chars`. -/
def litUnicodeWhiteSpaceChars : List CodeUnit := [0x00a0#16, 0x1680#16, 0x202f#16, 0x205f#16, 0x3000#16]

/-- The loop of `lit_search_char_in_array`, with `top` one higher. The first argument bounds the number of steps. -/
def searchLoop (c : CodeUnit) (array : List CodeUnit) : Nat → Nat → Nat → Bool
  | 0, _, _ => false
  | steps + 1, bottom, top =>
    if bottom < top then
      let middle := (bottom + (top - 1)) / 2
      let current := array.getD middle 0#16
      if current = c then true
      else if c < current then searchLoop c array steps bottom middle
      else searchLoop c array steps (middle + 1) top
    else false

/-- `lit_search_char_in_array`. -/
def litSearchCharInArray (c : CodeUnit) (array : List CodeUnit) : Bool :=
  searchLoop c array (array.length + 1) 0 array.length

/-- `lit_char_is_white_space`, for a code unit. -/
def litCharIsWhiteSpace (c : CodeUnit) : Bool :=
  if c ≤ 0x7f#16 then c == 0x20#16 || (decide (0x09#16 ≤ c) && decide (c ≤ 0x0d#16))
  else if c = 0xfeff#16 ∨ c = 0x2028#16 ∨ c = 0x2029#16 then true
  else
    (decide (0x2000#16 ≤ c) && decide (c ≤ 0x2000#16 + 0x000a#16)) || litSearchCharInArray c litUnicodeWhiteSpaceChars

/-- The loop of `ecma_string_trim_front`. The null case is a character that cannot be read. -/
def trimLoop : Nat → List Byte → Option (List Byte)
  | 0, s => some s
  | steps + 1, s =>
    if s = [] then some []
    else
      match litReadCodeUnitFromCesu8 s with
      | none => none
      | some (readSize, ch) => if litCharIsWhiteSpace ch then trimLoop steps (s.drop readSize) else some s

/-- `ecma_string_trim_front`. -/
def ecmaStringTrimFront (s : List Byte) : Option (List Byte) := trimLoop s.length s

/-! ## White space -/

/-- WhiteSpace and LineTerminator of ECMA-262: TAB, LF, VT, FF, CR, ZWNBSP, LS, PS and the space separators. -/
def IsWhiteSpace (c : CodeUnit) : Prop :=
  c ∈ [0x09#16, 0x0a#16, 0x0b#16, 0x0c#16, 0x0d#16, 0xfeff#16, 0x2028#16, 0x2029#16] ∨
    c ∈ [0x20#16, 0xa0#16, 0x1680#16, 0x202f#16, 0x205f#16, 0x3000#16] ∨ 0x2000#16 ≤ c ∧ c ≤ 0x200a#16

/-- The array is sorted, so the search finds every one of its characters. -/
theorem litSearchCharInArray_iff (c : CodeUnit) :
    litSearchCharInArray c litUnicodeWhiteSpaceChars = true ↔ c ∈ litUnicodeWhiteSpaceChars := by
  have heval : litSearchCharInArray c litUnicodeWhiteSpaceChars =
      if 0x202f#16 = c then true
      else if c < 0x202f#16 then if 0xa0#16 = c then true else if c < 0xa0#16 then false else if 0x1680#16 = c then true else false
      else if 0x205f#16 = c then true else if c < 0x205f#16 then false else if 0x3000#16 = c then true else false := by
    simp [litSearchCharInArray, searchLoop, litUnicodeWhiteSpaceChars]
  rw [heval]
  simp only [litUnicodeWhiteSpaceChars, List.mem_cons, List.not_mem_nil, or_false]
  constructor
  · intro h
    grind
  · intro h
    rcases h with h | h | h | h | h <;> rw [h] <;> rfl

theorem litCharIsWhiteSpace_iff (c : CodeUnit) : litCharIsWhiteSpace c = true ↔ IsWhiteSpace c := by
  unfold litCharIsWhiteSpace IsWhiteSpace
  have h7f : c ≤ 0x7f#16 ↔ c.toNat ≤ 0x7f := BitVec.le_def
  have hsum : (0x2000#16 + 0x000a#16 : CodeUnit) = 0x200a#16 := rfl
  rw [hsum]
  by_cases hsmall : c ≤ 0x7f#16
  · rw [if_pos hsmall]
    simp only [Bool.or_eq_true, Bool.and_eq_true, beq_iff_eq, decide_eq_true_eq, List.mem_cons, List.not_mem_nil, or_false]
    bv_omega
  · rw [if_neg hsmall]
    by_cases hsep : c = 0xfeff#16 ∨ c = 0x2028#16 ∨ c = 0x2029#16
    · rw [if_pos hsep]
      refine iff_of_true rfl (Or.inl ?_)
      rcases hsep with h | h | h <;> rw [h] <;> decide
    · rw [if_neg hsep, Bool.or_eq_true, litSearchCharInArray_iff, Bool.and_eq_true, decide_eq_true_eq, decide_eq_true_eq]
      simp only [litUnicodeWhiteSpaceChars, List.mem_cons, List.not_mem_nil, or_false]
      bv_omega
/-! ## Trimming -/

/-- Text that reads as white space. -/
inductive White : List Byte → Prop
  | nil : White []
  | cons {c w : List Byte} {u : CodeUnit} (hread : litReadCodeUnitFromCesu8 c = some (c.length, u)) (hu : IsWhiteSpace u)
      (hw : White w) : White (c ++ w)

theorem extra_append {n : Nat} {ret : CodePoint} {rest r : List Byte} {m : Nat} {u : CodeUnit}
    (h : litReadCodeUnitFromCesu8.extra n ret rest = some (m, u)) :
    litReadCodeUnitFromCesu8.extra n ret (rest ++ r) = some (m, u) := by
  unfold litReadCodeUnitFromCesu8.extra at h ⊢
  by_cases hle : n ≤ rest.length + 1
  · rw [if_pos hle] at h
    rw [if_pos (by rw [List.length_append]; omega), List.take_append_of_le_length (by omega)]
    exact h
  · rw [if_neg hle] at h
    cases h

/-- What is read does not depend on the bytes behind it. -/
theorem litReadCodeUnitFromCesu8_extend {s r : List Byte} {n : Nat} {u : CodeUnit}
    (h : litReadCodeUnitFromCesu8 s = some (n, u)) : litReadCodeUnitFromCesu8 (s ++ r) = some (n, u) := by
  cases s with
  | nil => cases h
  | cons c rest =>
    rw [List.cons_append, litReadCodeUnitFromCesu8]
    rw [litReadCodeUnitFromCesu8] at h
    by_cases h1 : c &&& 0x80#8 = 0#8
    · rw [if_pos h1] at h ⊢
      exact h
    · rw [if_neg h1] at h ⊢
      by_cases h2 : c &&& 0xe0#8 = 0xc0#8
      · rw [if_pos h2] at h ⊢
        exact extra_append h
      · rw [if_neg h2] at h ⊢
        by_cases h3 : c &&& 0xf0#8 = 0xe0#8
        · rw [if_pos h3] at h ⊢
          exact extra_append h
        · rw [if_neg h3] at h
          cases h

theorem extra_take {n : Nat} {ret : CodePoint} {rest : List Byte} {m : Nat} {u : CodeUnit} (hn : 0 < n)
    (h : litReadCodeUnitFromCesu8.extra n ret rest = some (m, u)) :
    m = n ∧ n ≤ rest.length + 1 ∧ litReadCodeUnitFromCesu8.extra n ret (rest.take (n - 1)) = some (m, u) := by
  unfold litReadCodeUnitFromCesu8.extra at h ⊢
  by_cases hle : n ≤ rest.length + 1
  · rw [if_pos hle] at h
    have hlen : n ≤ (rest.take (n - 1)).length + 1 := by
      rw [List.length_take]
      omega
    rw [if_pos hlen, List.take_take, Nat.min_self]
    cases h
    exact ⟨rfl, hle, rfl⟩
  · rw [if_neg hle] at h
    cases h

/-- The bytes that are read are some of the text, and enough to be read alone. -/
theorem litReadCodeUnitFromCesu8_take {s : List Byte} {n : Nat} {u : CodeUnit}
    (h : litReadCodeUnitFromCesu8 s = some (n, u)) :
    0 < n ∧ n ≤ s.length ∧ litReadCodeUnitFromCesu8 (s.take n) = some (n, u) := by
  cases s with
  | nil => cases h
  | cons c rest =>
    have hcons : ∀ k, 0 < k → (c :: rest).take k = c :: rest.take (k - 1) := by
      intro k hk
      cases k with
      | zero => cases hk
      | succ k => rfl
    rw [litReadCodeUnitFromCesu8] at h
    by_cases h1 : c &&& 0x80#8 = 0#8
    · rw [if_pos h1] at h
      cases h
      refine ⟨Nat.one_pos, by simp, ?_⟩
      rw [hcons 1 Nat.one_pos, litReadCodeUnitFromCesu8, if_pos h1]
    · rw [if_neg h1] at h
      by_cases h2 : c &&& 0xe0#8 = 0xc0#8
      · rw [if_pos h2] at h
        obtain ⟨hm, hle, htake⟩ := extra_take (by decide) h
        subst hm
        refine ⟨by decide, hle, ?_⟩
        rw [hcons 2 (by decide), litReadCodeUnitFromCesu8, if_neg h1, if_pos h2]
        exact htake
      · rw [if_neg h2] at h
        by_cases h3 : c &&& 0xf0#8 = 0xe0#8
        · rw [if_pos h3] at h
          obtain ⟨hm, hle, htake⟩ := extra_take (by decide) h
          subst hm
          refine ⟨by decide, hle, ?_⟩
          rw [hcons 3 (by decide), litReadCodeUnitFromCesu8, if_neg h1, if_neg h2, if_pos h3]
          exact htake
        · rw [if_neg h3] at h
          cases h

/-- A text that does not begin with white space. -/
def StartsDark (s : List Byte) : Prop := s = [] ∨ ∃ n u, litReadCodeUnitFromCesu8 s = some (n, u) ∧ ¬ IsWhiteSpace u

/-- A text that begins with something that is no character. -/
def StartsBroken (s : List Byte) : Prop := s ≠ [] ∧ litReadCodeUnitFromCesu8 s = none

/-- More steps than bytes make no difference. -/
theorem trimLoop_dark {s : List Byte} (h : StartsDark s) (steps : Nat) : trimLoop steps s = some s := by
  cases steps with
  | zero => rfl
  | succ steps =>
    unfold trimLoop
    cases h with
    | inl hnil => rw [if_pos hnil, hnil]
    | inr hread =>
      obtain ⟨n, u, hread, hu⟩ := hread
      have hne : s ≠ [] := by
        intro hnil
        rw [hnil] at hread
        cases hread
      rw [if_neg hne, hread]
      exact if_neg fun hw => hu ((litCharIsWhiteSpace_iff u).mp hw)

theorem trimLoop_broken {s : List Byte} (h : StartsBroken s) {steps : Nat} (hsteps : 0 < steps) : trimLoop steps s = none := by
  cases steps with
  | zero => cases hsteps
  | succ steps =>
    unfold trimLoop
    rw [if_neg h.1, h.2]

theorem trimLoop_white {w : List Byte} (hw : White w) {s : List Byte} {steps : Nat} (h : w.length + s.length ≤ steps) :
    ∃ steps', s.length ≤ steps' ∧ trimLoop steps (w ++ s) = trimLoop steps' s := by
  induction hw generalizing steps with
  | nil => exact ⟨steps, by simpa using h, rfl⟩
  | @cons c w u hread hu hw ih =>
    obtain ⟨hpos, -, -⟩ := litReadCodeUnitFromCesu8_take hread
    rw [List.length_append] at h
    cases steps with
    | zero => omega
    | succ steps =>
      obtain ⟨steps', hle, htrim⟩ := ih (show w.length + s.length ≤ steps by omega)
      refine ⟨steps', hle, ?_⟩
      have hne : c ++ w ++ s ≠ [] := by
        intro hnil
        rw [List.append_assoc, List.append_eq_nil_iff] at hnil
        rw [hnil.1] at hpos
        cases hpos
      have hread' : litReadCodeUnitFromCesu8 (c ++ w ++ s) = some (c.length, u) := by
        rw [List.append_assoc]
        exact litReadCodeUnitFromCesu8_extend hread
      rw [trimLoop, if_neg hne, hread']
      dsimp only
      rw [if_pos ((litCharIsWhiteSpace_iff u).mpr hu), List.append_assoc, List.drop_left]
      exact htrim

theorem ecmaStringTrimFront_dark {w s : List Byte} (hw : White w) (hs : StartsDark s) :
    ecmaStringTrimFront (w ++ s) = some s := by
  obtain ⟨steps, -, h⟩ := trimLoop_white hw (s := s) (Nat.le_of_eq List.length_append.symm)
  rw [ecmaStringTrimFront, h, trimLoop_dark hs]

theorem ecmaStringTrimFront_white {w : List Byte} (hw : White w) : ecmaStringTrimFront w = some [] := by
  have h := ecmaStringTrimFront_dark hw (s := []) (Or.inl rfl)
  rw [List.append_nil] at h
  exact h

theorem ecmaStringTrimFront_broken {w s : List Byte} (hw : White w) (hs : StartsBroken s) :
    ecmaStringTrimFront (w ++ s) = none := by
  obtain ⟨steps, hle, h⟩ := trimLoop_white hw (s := s) (Nat.le_of_eq List.length_append.symm)
  rw [ecmaStringTrimFront, h]
  exact trimLoop_broken hs (Nat.lt_of_lt_of_le (List.length_pos_iff.mpr hs.1) hle)

/-- Every text is white space and then something else. -/
theorem exists_white (n : Nat) (s : List Byte) (h : s.length ≤ n) :
    ∃ w t, White w ∧ s = w ++ t ∧ (StartsDark t ∨ StartsBroken t) := by
  induction n generalizing s with
  | zero => exact ⟨[], s, White.nil, rfl, Or.inl (Or.inl (List.length_eq_zero_iff.mp (Nat.le_zero.mp h)))⟩
  | succ n ih =>
    by_cases hnil : s = []
    · exact ⟨[], s, White.nil, rfl, Or.inl (Or.inl hnil)⟩
    · cases hread : litReadCodeUnitFromCesu8 s with
      | none => exact ⟨[], s, White.nil, rfl, Or.inr ⟨hnil, hread⟩⟩
      | some r =>
        obtain ⟨k, u⟩ := r
        by_cases hu : IsWhiteSpace u
        · obtain ⟨hpos, hle, htake⟩ := litReadCodeUnitFromCesu8_take hread
          have hlen : (s.take k).length = k := by rw [List.length_take, Nat.min_eq_left hle]
          obtain ⟨w, t, hw, heq, ht⟩ := ih (s.drop k) (by rw [List.length_drop]; omega)
          refine ⟨s.take k ++ w, t, White.cons (by rw [hlen]; exact htake) hu hw, ?_, ht⟩
          rw [List.append_assoc, ← heq, List.take_append_drop]
        · exact ⟨[], s, White.nil, rfl, Or.inl (Or.inr ⟨k, u, hread, hu⟩)⟩

/-- An ASCII character that is not white space. -/
theorem startsDark_cons {c : Byte} (h : c.toNat < 0x80) (hspace : c.toNat ≠ 0x20 ∧ (c.toNat < 0x09 ∨ 0x0d < c.toNat))
    (s : List Byte) : StartsDark (c :: s) := by
  have hbit : c &&& 0x80#8 = 0#8 := (lead_one c h).1
  refine Or.inr ⟨1, (c &&& 0x7f#8).setWidth 16, ?_, ?_⟩
  · rw [litReadCodeUnitFromCesu8, if_pos hbit]
  · have hval : ((c &&& 0x7f#8).setWidth 16 : CodeUnit).toNat = c.toNat := by
      have hmask : (c &&& 0x7f#8).toNat = c.toNat % 2 ^ 7 := by
        rw [BitVec.toNat_and]
        exact Nat.and_two_pow_sub_one_eq_mod _ 7
      rw [BitVec.toNat_setWidth, hmask, Nat.mod_eq_of_lt (by omega : c.toNat < 2 ^ 7), Nat.mod_eq_of_lt (by omega)]
    generalize ((c &&& 0x7f#8).setWidth 16 : CodeUnit) = u at hval
    unfold IsWhiteSpace
    simp only [List.mem_cons, List.not_mem_nil, or_false]
    bv_omega

end Lit
end JJS
