import JJS.Regexp.Chars
import JJS.Strings.Units

/-!
# JJS.Regexp.Positions

The input of the matcher as code units. A position is the number of code units before it; the readers go from the
address of a position to the address of another one.
-/

namespace JJS
namespace Regexp

open Utf8 Lit Strings

/-- The bytes are in the memory at an address. -/
def MemoryAt (memory : Nat → Byte) (p : Nat) (bytes : List Byte) : Prop :=
  ∀ i b, bytes[i]? = some b → memory (p + i) = b

/-- The input is these code units. -/
structure Subject.Holds (subject : Subject) (us : List CodeUnit) : Prop where
  inputEnd_eq : subject.inputEnd = subject.inputStart + (cesu8 us).length
  memory_at : MemoryAt subject.memory subject.inputStart (cesu8 us)

/-- The address behind so many code units. -/
def Subject.address (subject : Subject) (us : List CodeUnit) (n : Nat) : Nat :=
  subject.inputStart + (cesu8 (us.take n)).length

/-- A high surrogate with a low one behind it. -/
def PairAt (us : List CodeUnit) (n : Nat) : Prop :=
  ∃ u v, us[n]? = some u ∧ us[n + 1]? = some v ∧ IsHighUnit u ∧ IsLowUnit v

section

variable {memory : Nat → Byte} {p : Nat}

theorem memoryAt_cons_iff {b : Byte} {bytes : List Byte} :
    MemoryAt memory p (b :: bytes) ↔ memory p = b ∧ MemoryAt memory (p + 1) bytes := by
  constructor
  · intro h
    refine ⟨h 0 b rfl, ?_⟩
    intro i c hc
    rw [Nat.add_assoc, Nat.add_comm 1 i]
    exact h (i + 1) c hc
  · intro h i c hc
    cases i with
    | zero =>
      rw [List.getElem?_cons_zero, Option.some.injEq] at hc
      rw [← hc]
      exact h.1
    | succ i =>
      have hrest := h.2 i c hc
      rw [Nat.add_assoc, Nat.add_comm 1 i] at hrest
      exact hrest

theorem memoryAt_append_iff {bytes bytes' : List Byte} :
    MemoryAt memory p (bytes ++ bytes') ↔ MemoryAt memory p bytes ∧ MemoryAt memory (p + bytes.length) bytes' := by
  induction bytes generalizing p with
  | nil =>
    constructor
    · intro h
      refine ⟨?_, h⟩
      intro i b hb
      cases hb
    · intro h
      exact h.2
  | cons b bytes ih =>
    rw [List.cons_append, memoryAt_cons_iff, memoryAt_cons_iff, ih, List.length_cons, and_assoc,
      show p + 1 + bytes.length = p + (bytes.length + 1) by omega]

/-- A code unit that can be read from a list is read from the memory. -/
theorem readNext_of_read {s : List Byte} {n : Nat} {u : CodeUnit} (hs : MemoryAt memory p s)
    (h : litReadCodeUnitFromCesu8 s = some (n, u)) : litCesu8ReadNext memory p = (u, p + n) := by
  cases s with
  | nil => cases h
  | cons c rest =>
    obtain ⟨hc, hrest⟩ := memoryAt_cons_iff.mp hs
    rw [litReadCodeUnitFromCesu8] at h
    rw [litCesu8ReadNext, hc]
    by_cases h1 : c &&& 0x80#8 = 0#8
    · rw [if_pos h1] at h
      cases h
      exact if_pos h1
    · rw [if_neg h1] at h
      rw [if_neg h1]
      by_cases h2 : c &&& 0xe0#8 = 0xc0#8
      · rw [if_pos h2, litReadCodeUnitFromCesu8.extra] at h
        rw [if_pos h2]
        cases rest with
        | nil => cases h
        | cons b rest =>
          rw [if_pos (by simp)] at h
          cases h
          rw [(memoryAt_cons_iff.mp hrest).1]
          rfl
      · rw [if_neg h2] at h
        rw [if_neg h2]
        by_cases h3 : c &&& 0xf0#8 = 0xe0#8
        · rw [if_pos h3, litReadCodeUnitFromCesu8.extra] at h
          cases rest with
          | nil => cases h
          | cons b rest =>
            obtain ⟨hb, hrest⟩ := memoryAt_cons_iff.mp hrest
            cases rest with
            | nil => cases h
            | cons d rest =>
              rw [if_pos (by simp)] at h
              cases h
              rw [hb, show p + 2 = p + 1 + 1 from rfl, (memoryAt_cons_iff.mp hrest).1]
              rfl
        · rw [if_neg h3] at h
          cases h

theorem readNext_unit {u : CodeUnit} (h : MemoryAt memory p (encode u.toNat)) :
    litCesu8ReadNext memory p = (u, p + (encode u.toNat).length) := by
  have hread := litReadCodeUnitFromCesu8_append u []
  rw [List.append_nil] at hread
  exact readNext_of_read h hread

/-- From inside a code unit or from its end, the cursor goes back to its first byte. -/
theorem utf8Decr_bytes {c : Byte} {t : List Byte} (h : MemoryAt memory p (c :: t)) (hc : ¬Cont c)
    (ht : ∀ b ∈ t, Cont b) (k : Nat) (hk : k ≤ t.length) : utf8Decr memory (p + 1 + k) = p := by
  obtain ⟨hfirst, hrest⟩ := memoryAt_cons_iff.mp h
  induction k with
  | zero =>
    rw [Nat.add_zero, utf8Decr, hfirst, if_neg]
    exact fun hextra => hc ((isExtraByte_iff c).mp hextra)
  | succ k ih =>
    have hlt : k < t.length := hk
    have hget : memory (p + 1 + k) = t[k] := hrest k t[k] (List.getElem?_eq_getElem hlt)
    rw [← Nat.add_assoc, utf8Decr, hget, if_pos ((isExtraByte_iff _).mpr (ht _ (List.getElem_mem hlt)))]
    exact ih (Nat.le_of_lt hlt)

theorem utf8Decr_unit {u : CodeUnit} (h : MemoryAt memory p (encode u.toNat)) :
    utf8Decr memory (p + (encode u.toNat).length) = p := by
  obtain ⟨c, t, hencode, hc, ht⟩ := encode_bytes u
  rw [hencode] at h ⊢
  rw [List.length_cons, Nat.add_comm t.length 1, ← Nat.add_assoc]
  exact utf8Decr_bytes h hc ht t.length (Nat.le_refl _)

/-- Before the input, the cursor goes further. -/
theorem utf8Decr_lt (hp : 0 < p) : utf8Decr memory p < p := by
  induction p with
  | zero => exact absurd hp (Nat.lt_irrefl 0)
  | succ p ih =>
    rw [utf8Decr]
    split
    · cases p with
      | zero => exact Nat.lt_succ_self 0
      | succ p => exact Nat.lt_succ_of_lt (ih (Nat.succ_pos p))
    · exact Nat.lt_succ_self p

end

/-! ## Addresses -/

namespace Subject

variable {subject : Subject} {us : List CodeUnit} {n : Nat}

theorem address_zero : subject.address us 0 = subject.inputStart := by
  rw [address, List.take_zero, cesu8_nil, List.length_nil, Nat.add_zero]

theorem address_succ {u : CodeUnit} (h : us[n]? = some u) :
    subject.address us (n + 1) = subject.address us n + (encode u.toNat).length := by
  have htake : us.take (n + 1) = us.take n ++ [u] := by
    rw [List.take_add_one, h]
    rfl
  rw [address, htake, cesu8_append, cesu8_cons, cesu8_nil, List.append_nil, List.length_append, ← Nat.add_assoc]
  rfl

theorem address_lt_succ {u : CodeUnit} (h : us[n]? = some u) :
    subject.address us n < subject.address us (n + 1) := by
  have hpos := length_encode_pos u.toNat
  rw [address_succ h]
  omega

theorem address_le (n m : Nat) (h : n ≤ m) : subject.address us n ≤ subject.address us m := by
  obtain ⟨rest, hrest⟩ := (List.take_prefix_take_left h : us.take n <+: us.take m)
  rw [address, address, ← hrest, cesu8_append, List.length_append]
  omega

theorem inputStart_le_address : subject.inputStart ≤ subject.address us n := Nat.le_add_right _ _

theorem address_length (h : subject.Holds us) : subject.address us us.length = subject.inputEnd := by
  rw [address, List.take_length, h.inputEnd_eq]

theorem address_lt (hn : n < us.length) (m : Nat) (h : n < m) : subject.address us n < subject.address us m :=
  Nat.lt_of_lt_of_le (address_lt_succ (List.getElem?_eq_getElem hn)) (address_le (n + 1) m h)

theorem address_lt_end_iff (h : subject.Holds us) (hn : n ≤ us.length) :
    subject.address us n < subject.inputEnd ↔ n < us.length := by
  rw [← address_length h]
  constructor
  · intro hlt
    by_contra hge
    rw [show n = us.length by omega] at hlt
    exact Nat.lt_irrefl _ hlt
  · intro hlt
    exact address_lt hlt _ hlt

/-- A code unit is in the memory at its address. -/
theorem Holds.unit_at (h : subject.Holds us) {u : CodeUnit} (hu : us[n]? = some u) :
    MemoryAt subject.memory (subject.address us n) (encode u.toNat) := by
  obtain ⟨hlt, hget⟩ := List.getElem?_eq_some_iff.mp hu
  have hsplit : us = us.take n ++ u :: us.drop (n + 1) := by
    rw [← hget, ← List.drop_eq_getElem_cons hlt, List.take_append_drop]
  have hmem := h.memory_at
  rw [hsplit, cesu8_append, memoryAt_append_iff, cesu8_cons, memoryAt_append_iff] at hmem
  exact hmem.2.1

theorem Holds.readNext (h : subject.Holds us) {u : CodeUnit} (hu : us[n]? = some u) :
    litCesu8ReadNext subject.memory (subject.address us n) = (u, subject.address us (n + 1)) := by
  rw [address_succ hu]
  exact readNext_unit (h.unit_at hu)

theorem Holds.utf8Decr (h : subject.Holds us) {u : CodeUnit} (hu : us[n]? = some u) :
    utf8Decr subject.memory (subject.address us (n + 1)) = subject.address us n := by
  rw [address_succ hu]
  exact utf8Decr_unit (h.unit_at hu)

theorem Holds.readPrev (h : subject.Holds us) {u : CodeUnit} (hu : us[n]? = some u) :
    cesu8ReadPrev subject.memory (subject.address us (n + 1)) = (u, subject.address us n) := by
  rw [cesu8ReadPrev, h.utf8Decr hu, litCesu8PeekNext, h.readNext hu]

/-- A code point is a pair of surrogates, or a code unit. -/
theorem Holds.unicodeAdvance (h : subject.Holds us) (hn : n < us.length) :
    (PairAt us n → (ecmaRegexpUnicodeAdvance subject.memory (subject.address us n) subject.inputEnd).2 =
        subject.address us (n + 2)) ∧
      (¬PairAt us n → (ecmaRegexpUnicodeAdvance subject.memory (subject.address us n) subject.inputEnd).2 =
        subject.address us (n + 1)) := by
  have hu : us[n]? = some us[n] := List.getElem?_eq_getElem hn
  rw [ecmaRegexpUnicodeAdvance, h.readNext hu]
  have hcond_iff : (litIsHighSurrogate us[n] = true ∧ subject.address us (n + 1) < subject.inputEnd) ↔
      IsHighUnit us[n] ∧ n + 1 < us.length :=
    and_congr (litIsHighSurrogate_iff _) (address_lt_end_iff h hn)
  dsimp only
  constructor
  · intro hpair
    obtain ⟨u, v, hu', hv, hhigh, hlow⟩ := hpair
    rw [hu, Option.some.injEq] at hu'
    rw [← hu'] at hhigh
    have hv' := (List.getElem?_eq_some_iff.mp hv).1
    rw [if_pos (hcond_iff.mpr ⟨hhigh, hv'⟩), litCesu8PeekNext, h.readNext hv, if_pos ((litIsLowSurrogate_iff v).mpr hlow),
      show n + 2 = n + 1 + 1 from rfl, address_succ hv, length_encode_surrogate (.inr hlow)]
  · intro hpair
    by_cases hcond : IsHighUnit us[n] ∧ n + 1 < us.length
    · have hv : us[n + 1]? = some us[n + 1] := List.getElem?_eq_getElem hcond.2
      have hlow : ¬litIsLowSurrogate us[n + 1] = true := by
        intro hlow
        exact hpair ⟨_, _, hu, hv, hcond.1, (litIsLowSurrogate_iff _).mp hlow⟩
      rw [if_pos (hcond_iff.mpr hcond), litCesu8PeekNext, h.readNext hv, if_neg hlow]
    · rw [if_neg (fun hc => hcond (hcond_iff.mp hc))]

/-- The matcher reads a code point in full unicode mode, and a code unit otherwise. -/
theorem Holds.advance (h : subject.Holds us) (tables : CaseTables) (flags : Flags) (hn : n < us.length) :
    (flags.unicode = true ∧ PairAt us n →
        (ecmaRegexpAdvance tables flags subject (subject.address us n)).2 = subject.address us (n + 2)) ∧
      (¬(flags.unicode = true ∧ PairAt us n) →
        (ecmaRegexpAdvance tables flags subject (subject.address us n)).2 = subject.address us (n + 1)) := by
  obtain ⟨hpair, hunit⟩ := h.unicodeAdvance hn
  rw [ecmaRegexpAdvance]
  cases flags.unicode with
  | true =>
    rw [if_pos rfl]
    exact ⟨fun hp => hpair hp.2, fun hp => hunit fun hpa => hp ⟨rfl, hpa⟩⟩
  | false =>
    rw [if_neg Bool.false_ne_true, h.readNext (List.getElem?_eq_getElem hn)]
    exact ⟨fun hp => Bool.noConfusion hp.1, fun _ => rfl⟩

/-- A step back goes over a pair, or over a code unit. -/
theorem Holds.stepBack (h : subject.Holds us) (flags : Flags) (hn : n + 1 < us.length) :
    (flags.unicode = true ∧ PairAt us n →
        ecmaRegexpStepBack subject.memory flags (subject.address us (n + 2)) = subject.address us n) ∧
      (¬(flags.unicode = true ∧ PairAt us n) →
        ecmaRegexpStepBack subject.memory flags (subject.address us (n + 2)) = subject.address us (n + 1)) := by
  have hu : us[n]? = some us[n] := List.getElem?_eq_getElem (Nat.lt_of_succ_lt hn)
  have hv : us[n + 1]? = some us[n + 1] := List.getElem?_eq_getElem hn
  have hpeek : litCesu8PeekPrev subject.memory (subject.address us (n + 1)) = us[n] := by
    rw [litCesu8PeekPrev, h.utf8Decr hu, litCesu8PeekNext, h.readNext hu]
  have hcond : (flags.unicode = true ∧ litIsLowSurrogate us[n + 1] = true ∧ litIsHighSurrogate us[n] = true) ↔
      (flags.unicode = true ∧ PairAt us n) := by
    rw [litIsLowSurrogate_iff, litIsHighSurrogate_iff]
    refine and_congr_right' ⟨fun hp => ⟨_, _, hu, hv, hp.2, hp.1⟩, ?_⟩
    intro hp
    obtain ⟨u, v, hu', hv', hhigh, hlow⟩ := hp
    rw [hu, Option.some.injEq] at hu'
    rw [hv, Option.some.injEq] at hv'
    rw [hu', hv']
    exact ⟨hlow, hhigh⟩
  rw [ecmaRegexpStepBack, show n + 2 = n + 1 + 1 from rfl, h.readPrev hv]
  dsimp only
  rw [hpeek]
  constructor
  · intro hp
    obtain ⟨u, v, hu', hv', hhigh, hlow⟩ := hp.2
    rw [if_pos (hcond.mpr hp), address_succ hu', length_encode_surrogate (.inl hhigh), Nat.add_sub_cancel]
  · intro hp
    rw [if_neg (fun hc => hp (hcond.mp hc))]

end Subject

end Regexp
end JJS
