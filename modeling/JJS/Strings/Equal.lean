import JJS.Strings.Create

/-!
# JJS.Strings.Equal

Whether equal texts are equal strings, whatever they were created from. Special forms are compared by identity,
and strings with characters by size, length and bytes. `ecma_new_ecma_string_from_utf16` tests for no special
form but the empty string, and it counts a surrogate pair as one character; so the strings of a text agree just
when it has no special form and no surrogate pair, or is empty (`equal_texts_iff`).
-/

namespace JJS
namespace Strings

open Utf8 Lit
open Hashset (litUtf8StringCalcHash)

/-! ## Sources -/

/-- What a string is created from. -/
inductive Source where
  | utf8 (s : List Byte)
  | utf8ConvertedToCesu8 (s : List Byte)
  | utf16 (us : List CodeUnit)
  | externalCesu8 (s : List Byte)
  | stringbuilder (s : List Byte)
  | uint32 (number : BitVec 32)

/-- The string that the constructor for the source creates. -/
def create (context : Context) (address : Nat) : Source → EcmaString
  | .utf8 s => ecmaNewEcmaStringFromUtf8 context address s
  | .utf8ConvertedToCesu8 s => ecmaNewEcmaStringFromUtf8ConvertedToCesu8 context address s
  | .utf16 us => ecmaNewEcmaStringFromUtf16 address us
  | .externalCesu8 s => ecmaNewEcmaExternalStringFromCesu8 context address s
  | .stringbuilder s => ecmaStringbuilderFinalize context address s
  | .uint32 number => ecmaNewEcmaStringFromUint32 context address number

/-- The source is the text `us`, in a buffer whose size is a number of 32 bits. A character above `0xffff` in UTF-8
is either four bytes or, as in CESU-8, two surrogates. -/
def IsSource (us : List CodeUnit) : Source → Prop
  | .utf8 s | .externalCesu8 s | .stringbuilder s => s = cesu8 us ∧ s.length < 2 ^ 32
  | .utf8ConvertedToCesu8 s =>
    s.length < 2 ^ 32 ∧ ∃ cps : List Point, s = (cps.map Point.encode).flatten ∧ units cps = us
  | .utf16 vs => vs = us ∧ vs.length < 2 ^ 32
  | .uint32 number => numeral number.toNat = cesu8 us

/-- Two strings that nothing tells apart. -/
structure Alike (context : Context) (string₁ string₂ : EcmaString) : Prop where
  equal : ecmaCompareEcmaStrings string₁ string₂ = true
  hash : ecmaStringHash string₁ = ecmaStringHash string₂
  index : ecmaStringGetArrayIndex string₁ = ecmaStringGetArrayIndex string₂
  magic : ecmaGetStringMagic context string₁ = ecmaGetStringMagic context string₂

/-- The strings created for the text are alike and have its characters, and no string of another text is equal to
one of them. Strings that exist together have different addresses. -/
structure EqualTexts (context : Context) (us : List CodeUnit) : Prop where
  alike {source₁ source₂ : Source} {address₁ address₂ : Nat} : IsSource us source₁ → IsSource us source₂ →
    address₁ ≠ address₂ → Alike context (create context address₁ source₁) (create context address₂ source₂)
  chars {source : Source} {address : Nat} (flags : Flags) (uint32Buffer : Bool) : IsSource us source →
    (ecmaStringGetChars context flags uint32Buffer (create context address source)).chars = cesu8 us
  distinct {vs : List CodeUnit} {source₁ source₂ : Source} {address₁ address₂ : Nat} : vs ≠ us →
    (cesu8 vs).length < 2 ^ 32 → IsSource us source₁ → IsSource vs source₂ → address₁ ≠ address₂ →
    ecmaCompareEcmaStrings (create context address₁ source₁) (create context address₂ source₂) = false

/-! ## Comparison -/

theorem not_uint32_of_chars {d : Descriptor} (h : ecmaCompareGetStringChars d ≠ none) : d.isUint32InDesc = false := by
  cases d with
  | uint32InDesc number => exact absurd rfl h
  | magicStringEx id => rfl
  | heapUtf8 hash size length buffer => rfl
  | longOrExternal hash size length string => rfl
  | heapAscii hash size buffer => rfl

theorem Holds.chars_ne_none {s : List Byte} {n : Nat} {d : Descriptor} (h : Holds s n d) :
    ecmaCompareGetStringChars d ≠ none := by
  rw [h.chars]
  exact Option.some_ne_none _

/-- Descriptors at different addresses. -/
theorem compare_heap {address₁ address₂ : Nat} (hne : address₁ ≠ address₂) (d e : Descriptor) :
    ecmaCompareEcmaStrings (.heap address₁ d) (.heap address₂ e) =
      if d.hash ≠ e.hash then false else if d.isUint32InDesc then e.isUint32InDesc else ecmaCompareEcmaStringsLongpath d e := by
  have hpointer : samePointer (.heap address₁ d) (.heap address₂ e) = false := beq_eq_false_iff_ne.mpr hne
  rw [ecmaCompareEcmaStrings, hpointer]
  rfl

/-- Strings with characters are equal when their characters and lengths are. -/
theorem compare_holds {s t : List Byte} {n m address₁ address₂ : Nat} {d e : Descriptor} (hd : Holds s n d) (he : Holds t m e)
    (hne : address₁ ≠ address₂) :
    ecmaCompareEcmaStrings (.heap address₁ d) (.heap address₂ e) = true ↔ s = t ∧ n = m := by
  rw [compare_heap hne, hd.hash, he.hash, not_uint32_of_chars hd.chars_ne_none, if_neg Bool.false_ne_true,
    ecmaCompareEcmaStringsLongpath, hd.chars, he.chars]
  dsimp only
  constructor
  · intro h
    split at h
    · cases h
    · split at h
      · cases h
      · rename_i hsame
        have hlen : s.length = t.length := by
          by_contra hdiff
          exact hsame (Or.inl hdiff)
        have hcount : n = m := by
          by_contra hdiff
          exact hsame (Or.inr hdiff)
        rw [Bool.and_eq_true, List.take_length, hlen, List.take_length] at h
        exact ⟨eq_of_memcmp hlen (beq_iff_eq.mp h.2), hcount⟩
  · intro h
    obtain ⟨heq, hcount⟩ := h
    rw [heq, hcount, if_neg (fun h => h rfl), if_neg (fun h => h.elim (fun h => h rfl) (fun h => h rfl)), List.take_length,
      memcmp_self, beq_self_eq_true]
    rfl

/-- A special form is equal to no string with characters. -/
theorem compare_special {string : EcmaString} (hs : string.IsSpecial) {t : List Byte} {m address : Nat} {e : Descriptor}
    (he : Holds t m e) (hne : ∀ a d, string = .heap a d → a ≠ address) :
    ecmaCompareEcmaStrings string (.heap address e) = false ∧ ecmaCompareEcmaStrings (.heap address e) string = false := by
  cases string with
  | direct type value =>
    constructor
    · rfl
    · rfl
  | heap a d =>
    have hdiff := hne a d rfl
    have hnone : ecmaCompareGetStringChars d = none := hs
    have hlong : ecmaCompareEcmaStringsLongpath d e = false := by
      rw [ecmaCompareEcmaStringsLongpath, hnone]
    have hlong' : ecmaCompareEcmaStringsLongpath e d = false := by
      rw [ecmaCompareEcmaStringsLongpath, hnone, he.chars]
    have huint := not_uint32_of_chars he.chars_ne_none
    rw [compare_heap hdiff, compare_heap hdiff.symm, hlong, hlong', huint]
    constructor
    · split
      · rfl
      · split
        · rfl
        · rfl
    · split
      · rfl
      · rfl

/-! ## Created strings -/

section Create

variable {context : Context} {address : Nat} {us : List CodeUnit}

theorem find_address {s : List Byte} {a : Nat} {d : Descriptor}
    (h : ecmaFindSpecialString context address s = some (.heap a d)) : a = address := by
  rw [ecmaFindSpecialString] at h
  dsimp only at h
  split at h
  · cases h
  · split at h
    · rw [ecmaNewEcmaStringFromUint32] at h
      split at h
      · cases h
      · cases h
        rfl
    · split at h
      · rw [ecmaNewEcmaStringFromMagicStringExId] at h
        split at h
        · cases h
        · cases h
          rfl
      · cases h

/-- What is created from a text that fits: the special form of the text, a number string, or a string with the
characters of the text. -/
inductive Created (context : Context) (address : Nat) (us : List CodeUnit) : EcmaString → Prop where
  | found {string : EcmaString} : ecmaFindSpecialString context address (cesu8 us) = some string →
      Created context address us string
  | number (n : BitVec 32) : us ≠ [] → Created context address us (ecmaNewEcmaStringFromUint32 context address n)
  | plain {d : Descriptor} {n : Nat} : Holds (cesu8 us) n d → Created context address us (.heap address d)

theorem fromUtf8_created : Created context address us (ecmaNewEcmaStringFromUtf8 context address (cesu8 us)) := by
  cases hfind : ecmaFindSpecialString context address (cesu8 us) with
  | some string =>
    rw [fromUtf8_special context address hfind]
    exact Created.found hfind
  | none =>
    obtain ⟨d, heq, hd⟩ := fromUtf8_spec context address hfind
    rw [heq]
    exact Created.plain hd

theorem ne_nil_of_numeral {n : Nat} (h : numeral n = cesu8 us) : us ≠ [] := by
  intro hnil
  rw [hnil] at h
  exact numeral_ne_nil n h

theorem create_created (context : Context) (address : Nat) {source : Source} (hsource : IsSource us source)
    (hfits : (cesu8 us).length < 2 ^ 32) : Created context address us (create context address source) := by
  cases source with
  | utf8 s =>
    rw [hsource.1]
    exact fromUtf8_created
  | stringbuilder s =>
    rw [hsource.1, create, stringbuilder_eq]
    exact fromUtf8_created
  | externalCesu8 s =>
    rw [hsource.1, create]
    cases hfind : ecmaFindSpecialString context address (cesu8 us) with
    | some string =>
      rw [external_special context address hfind]
      exact Created.found hfind
    | none =>
      obtain ⟨d, heq, hd⟩ := external_spec context address hfind
      rw [heq]
      exact Created.plain hd
  | utf16 vs =>
    rw [hsource.1, create]
    by_cases hnil : us = []
    · rw [hnil]
      exact Created.found ((find_empty_iff context address).mpr rfl)
    · obtain ⟨d, heq, hd⟩ := fromUtf16_spec address hnil hfits
      rw [heq]
      exact Created.plain hd
  | utf8ConvertedToCesu8 s =>
    obtain ⟨_, cps, hs, hunits⟩ := hsource
    rw [hs, create]
    by_cases hadded : added cps = 0
    · rw [converted_short context address hadded, hunits]
      exact fromUtf8_created
    · obtain ⟨d, heq, hd⟩ := converted_long context address hadded (by rw [hunits]; exact hfits)
      rw [hunits] at hd
      rw [heq]
      exact Created.plain hd
  | uint32 number => exact Created.number number (ne_nil_of_numeral hsource)

theorem Created.cases {string : EcmaString} (h : Created context address us string) :
    (string.IsSpecial ∧ (us ≠ [] → string ≠ ecmaGetMagicString magicStringEmpty) ∧ ∀ a d, string = .heap a d → a = address) ∨
      ∃ d n, string = .heap address d ∧ Holds (cesu8 us) n d := by
  cases h with
  | found hfind =>
    refine Or.inl ⟨find_special context address hfind, ?_, ?_⟩
    · intro hne heq
      rw [heq] at hfind
      exact cesu8_ne_nil hne ((find_empty_iff context address).mp hfind)
    · intro a d heq
      rw [heq] at hfind
      exact find_address hfind
  | number n _ =>
    refine Or.inl ⟨fromUint32_special context address n, ?_, ?_⟩
    · intro _ heq
      rw [ecmaNewEcmaStringFromUint32, ecmaGetMagicString] at heq
      split at heq
      · cases heq
      · cases heq
    · intro a d heq
      rw [ecmaNewEcmaStringFromUint32] at heq
      split at heq
      · cases heq
      · cases heq
        rfl
  | plain hd => exact Or.inr ⟨_, _, rfl, hd⟩

/-- From the empty text comes the magic string only. -/
theorem create_empty (context : Context) (address : Nat) {source : Source} (hsource : IsSource [] source) :
    create context address source = ecmaGetMagicString magicStringEmpty := by
  have hempty := (find_empty_iff context address (s := [])).mpr rfl
  have hutf8 := fromUtf8_special context address hempty
  cases source with
  | utf8 s =>
    rw [hsource.1]
    exact hutf8
  | stringbuilder s =>
    rw [hsource.1, create, stringbuilder_eq]
    exact hutf8
  | externalCesu8 s =>
    rw [hsource.1]
    exact external_special context address hempty
  | utf16 vs =>
    rw [hsource.1]
    rfl
  | utf8ConvertedToCesu8 s =>
    obtain ⟨_, cps, hs, hunits⟩ := hsource
    have hadded : added cps = 0 := by
      have hlength := length_cesu8_units cps
      rw [hunits, cesu8_nil, List.length_nil] at hlength
      omega
    rw [hs, create, converted_short context address hadded, hunits]
    exact hutf8
  | uint32 number => exact absurd rfl (ne_nil_of_numeral hsource)

/-- A text without a special form and without a pair gives strings with its characters and its length. -/
theorem create_plain (context : Context) (address : Nat) {source : Source} (hsource : IsSource us source)
    (hfits : (cesu8 us).length < 2 ^ 32) (hspecial : ¬ Special context (cesu8 us)) (hpair : NoPair us) :
    ∃ d, create context address source = .heap address d ∧ Holds (cesu8 us) us.length d := by
  have hfind := (find_eq_none_iff context address).mpr hspecial
  have hne : us ≠ [] := by
    intro hnil
    exact cesu8_ne_nil_of_find context address hfind (by rw [hnil]; rfl)
  have hutf8 := fromUtf8_spec context address hfind
  cases source with
  | utf8 s =>
    rw [hsource.1]
    exact hutf8
  | stringbuilder s =>
    rw [hsource.1, create, stringbuilder_eq]
    exact hutf8
  | externalCesu8 s =>
    rw [hsource.1]
    exact external_spec context address hfind
  | utf16 vs =>
    obtain ⟨d, heq, hd⟩ := fromUtf16_spec address hne hfits
    rw [(utf16CodePoints_length_iff us).mpr hpair] at hd
    rw [hsource.1]
    exact ⟨d, heq, hd⟩
  | utf8ConvertedToCesu8 s =>
    obtain ⟨_, cps, hs, hunits⟩ := hsource
    rw [hs, create]
    by_cases hadded : added cps = 0
    · rw [converted_short context address hadded, hunits]
      exact hutf8
    · have hlong := converted_long context address hadded (by rw [hunits]; exact hfits)
      rw [hunits] at hlong
      exact hlong
  | uint32 number =>
    have hnumeral : numeral number.toNat = cesu8 us := hsource
    rw [← hnumeral] at hspecial
    exact absurd (Special.number number.isLt) hspecial

end Create

theorem Holds.getChars {s : List Byte} {n : Nat} {d : Descriptor} (h : Holds s n d) (context : Context) (flags : Flags)
    (uint32Buffer : Bool) (address : Nat) :
    (ecmaStringGetChars context flags uint32Buffer (.heap address d)).chars = s := by
  have hchars := h.chars
  cases d with
  | heapUtf8 hash size length buffer =>
    rw [ecmaCompareGetStringChars, Option.some_inj, Prod.mk.injEq, Prod.mk.injEq] at hchars
    show buffer.take size.toNat = s
    rw [hchars.1, hchars.2.1, List.take_length]
  | longOrExternal hash size length string =>
    rw [ecmaCompareGetStringChars, Option.some_inj, Prod.mk.injEq, Prod.mk.injEq] at hchars
    show string.take size = s
    rw [hchars.1, hchars.2.1, List.take_length]
  | heapAscii hash size buffer =>
    rw [ecmaCompareGetStringChars, Option.some_inj, Prod.mk.injEq, Prod.mk.injEq] at hchars
    show buffer.take (asciiStringGetSize size) = s
    rw [hchars.1, hchars.2.1, List.take_length]
  | uint32InDesc number => cases hchars
  | magicStringEx id => cases hchars

theorem Holds.alike {s : List Byte} {n address₁ address₂ : Nat} {d e : Descriptor} (hd : Holds s n d) (he : Holds s n e)
    (context : Context) (hne : address₁ ≠ address₂) : Alike context (.heap address₁ d) (.heap address₂ e) where
  equal := (compare_holds hd he hne).mpr ⟨rfl, rfl⟩
  hash := by
    show d.hash = e.hash
    rw [hd.hash, he.hash]
  index := by
    have hindex : ∀ {a : Nat} {d : Descriptor}, Holds s n d → ecmaStringGetArrayIndex (.heap a d) = stringNotArrayIndex := by
      intro a d hd
      cases d with
      | uint32InDesc number => cases hd.chars
      | magicStringEx id => rfl
      | heapUtf8 hash size length buffer => rfl
      | longOrExternal hash size length string => rfl
      | heapAscii hash size buffer => rfl
    rw [hindex hd, hindex he]
  magic := rfl

/-! ## Equal texts -/

section Texts

variable (context : Context) {us : List CodeUnit}

theorem equalTexts_nil : EqualTexts context [] where
  alike := by
    intro source₁ source₂ address₁ address₂ h₁ h₂ _
    rw [create_empty context _ h₁, create_empty context _ h₂]
    exact ⟨rfl, rfl, rfl, rfl⟩
  chars := by
    intro source address flags uint32Buffer h
    have hpos := List.length_pos_iff.mpr (magic_ne_nil context)
    have hcount := context.magic_count
    rw [create_empty context _ h, ecmaGetMagicString, ecmaStringGetChars, if_neg (by rw [magicStringEmpty]; omega),
      magic_getD_zero]
    rfl
  distinct := by
    intro vs source₁ source₂ address₁ address₂ hne hfits h₁ h₂ _
    rw [create_empty context _ h₁]
    have hcreated := (create_created context address₂ h₂ hfits).cases
    generalize create context address₂ source₂ = string at hcreated
    cases hcreated with
    | inl hspecial =>
      have hother := hspecial.2.1 hne
      cases string with
      | direct type value =>
        have hsame : ¬ (DirectType.magic == type && magicStringEmpty == value) = true := by
          intro h
          rw [Bool.and_eq_true, beq_iff_eq, beq_iff_eq] at h
          apply hother
          rw [← h.1, ← h.2]
          rfl
        exact if_neg hsame
      | heap a d => rfl
    | inr hplain =>
      obtain ⟨d, n, heq, _⟩ := hplain
      rw [heq]
      rfl

theorem equalTexts_plain (hfits : (cesu8 us).length < 2 ^ 32) (hspecial : ¬ Special context (cesu8 us)) (hpair : NoPair us) :
    EqualTexts context us where
  alike := by
    intro source₁ source₂ address₁ address₂ h₁ h₂ hne
    obtain ⟨d, heq, hd⟩ := create_plain context address₁ h₁ hfits hspecial hpair
    obtain ⟨e, heq', he⟩ := create_plain context address₂ h₂ hfits hspecial hpair
    rw [heq, heq']
    exact hd.alike he context hne
  chars := by
    intro source address flags uint32Buffer h
    obtain ⟨d, heq, hd⟩ := create_plain context address h hfits hspecial hpair
    rw [heq]
    exact hd.getChars context flags uint32Buffer address
  distinct := by
    intro vs source₁ source₂ address₁ address₂ hne hfits' h₁ h₂ haddress
    obtain ⟨d, heq, hd⟩ := create_plain context address₁ h₁ hfits hspecial hpair
    rw [heq]
    cases (create_created context address₂ h₂ hfits').cases with
    | inl hcreated =>
      refine (compare_special hcreated.1 hd ?_).2
      intro a d' h
      rw [hcreated.2.2 a d' h]
      exact haddress.symm
    | inr hplain =>
      obtain ⟨e, n, heq', he⟩ := hplain
      rw [heq', Bool.eq_false_iff]
      intro hequal
      have hsame := ((compare_holds hd he haddress).mp hequal).1
      exact hne (cesu8_inj hsame).symm

theorem units_length_le (cps : List Point) : (units cps).length ≤ ((cps.map Point.encode).flatten).length := by
  induction cps with
  | nil => exact Nat.le_refl 0
  | cons c cps ih =>
    have ih : (cps.flatMap Point.units).length ≤ ((cps.map Point.encode).flatten).length := ih
    rw [units, List.flatMap_cons, List.length_append, List.map_cons, List.flatten_cons, List.length_append]
    cases encode_cases c with
    | inl h =>
      have hpos := List.length_pos_iff.mpr c.sequence.ne_nil
      rw [h.2.1]
      omega
    | inr h =>
      obtain ⟨_, htwo, a, b, d, e, hencode, _⟩ := h
      have hfour : c.encode.length = 4 := by
        rw [hencode]
        rfl
      rw [htwo, hfour]
      omega

theorem numeral_length_le (n : BitVec 32) : (numeral n.toNat).length ≤ 10 := by
  rw [numeral]
  split
  · exact Nat.succ_le_succ (Nat.zero_le 9)
  · rw [List.length_map, List.length_reverse]
    exact length_digits_le n.isLt

/-- No buffer holds a text of `2 ^ 32` code units. -/
theorem length_of_source {source : Source} (h : IsSource us source) : us.length < 2 ^ 32 := by
  have hle := length_le_cesu8 us
  cases source with
  | utf8 s =>
    obtain ⟨heq, hlt⟩ := h
    rw [heq] at hlt
    omega
  | stringbuilder s =>
    obtain ⟨heq, hlt⟩ := h
    rw [heq] at hlt
    omega
  | externalCesu8 s =>
    obtain ⟨heq, hlt⟩ := h
    rw [heq] at hlt
    omega
  | utf16 vs =>
    obtain ⟨heq, hlt⟩ := h
    rw [heq] at hlt
    exact hlt
  | utf8ConvertedToCesu8 s =>
    obtain ⟨hlt, cps, hs, hunits⟩ := h
    have hunitsLe := units_length_le cps
    rw [hunits, ← hs] at hunitsLe
    omega
  | uint32 number =>
    have hnumeral : numeral number.toNat = cesu8 us := h
    have hten := numeral_length_le number
    rw [hnumeral] at hten
    omega

/-- The characters of a string from a buffer are not more than its size says. -/
theorem buffer_chars_le (length size : Nat) (hash : BitVec 32) (data : List Byte) (hsize : size < 2 ^ 32) (address : Nat)
    (flags : Flags) (uint32Buffer : Bool) :
    (ecmaStringGetChars context flags uint32Buffer
      (.heap address (ecmaNewEcmaStringFromUtf8Buffer length size hash data))).chars.length < 2 ^ 32 := by
  rw [ecmaNewEcmaStringFromUtf8Buffer]
  split
  · split
    · show (data.take (asciiStringGetSize _)).length < _
      have hbyte := (BitVec.ofNat 8 (size - 1)).isLt
      have hle := List.length_take_le (asciiStringGetSize (BitVec.ofNat 8 (size - 1))) data
      rw [asciiStringGetSize] at hle ⊢
      omega
    · show (data.take (BitVec.ofNat 16 size).toNat).length < _
      have hword := (BitVec.ofNat 16 size).isLt
      have hle := List.length_take_le (BitVec.ofNat 16 size).toNat data
      omega
  · show (data.take size).length < _
    have hle := List.length_take_le size data
    omega

theorem fits_of_equalTexts (hlt : us.length < 2 ^ 32) (h : EqualTexts context us) : (cesu8 us).length < 2 ^ 32 := by
  have hchars := @h.chars (.utf16 us) 0 ⟨false, false, false, false⟩ true ⟨rfl, hlt⟩
  rw [← hchars, create, ecmaNewEcmaStringFromUtf16]
  split
  · rename_i hzero
    have hnil := List.length_eq_zero_iff.mp hzero
    have hempty := @(equalTexts_nil context).chars (.utf16 []) 0 ⟨false, false, false, false⟩ true
      ⟨rfl, by decide⟩
    have hempty : (ecmaStringGetChars context ⟨false, false, false, false⟩ true (ecmaGetMagicString magicStringEmpty)).chars =
      cesu8 [] := hempty
    rw [hempty]
    exact Nat.two_pow_pos 32
  · apply buffer_chars_le
    rw [measure_size]
    exact Nat.mod_lt _ (Nat.two_pow_pos 32)

/-- The strings created for a text are equal, alike and have its characters, and no string of another text is equal
to one of them, just when the text is empty, or has neither a special form nor a surrogate pair; texts whose CESU-8
is too long for a string have wrong characters, and those of `2 ^ 32` code units cannot be passed at all. -/
theorem equal_texts_iff (us : List CodeUnit) :
    EqualTexts context us ↔
      2 ^ 32 ≤ us.length ∨
        (cesu8 us).length < 2 ^ 32 ∧ (us = [] ∨ ¬ Special context (cesu8 us) ∧ NoPair us) := by
  constructor
  · intro h
    by_cases hlt : us.length < 2 ^ 32
    · have hfits := fits_of_equalTexts context hlt h
      refine Or.inr ⟨hfits, ?_⟩
      by_cases hnil : us = []
      · exact Or.inl hnil
      · have hequal := (@h.alike (.utf8 (cesu8 us)) (.utf16 us) 0 1 ⟨rfl, hfits⟩ ⟨rfl, hlt⟩ (by decide)).equal
        obtain ⟨e, heq, he⟩ := fromUtf16_spec 1 hnil hfits
        rw [create, create, heq] at hequal
        cases hfind : ecmaFindSpecialString context 0 (cesu8 us) with
        | some string =>
          rw [fromUtf8_special context 0 hfind] at hequal
          have hne : ∀ a d, string = .heap a d → a ≠ 1 := by
            intro a d hs
            rw [hs] at hfind
            rw [find_address hfind]
            exact Nat.zero_ne_one
          have hdiff := (compare_special (find_special context 0 hfind) he hne).1
          rw [hdiff] at hequal
          cases hequal
        | none =>
          obtain ⟨d, heq', hd⟩ := fromUtf8_spec context 0 hfind
          rw [heq'] at hequal
          have hcount := ((compare_holds hd he (by decide)).mp hequal).2
          exact Or.inr ⟨(find_eq_none_iff context 0).mp hfind, (utf16CodePoints_length_iff us).mp hcount.symm⟩
    · exact Or.inl (Nat.not_lt.mp hlt)
  · intro h
    cases h with
    | inl hlong =>
      constructor
      · exact fun h₁ _ _ => absurd (length_of_source h₁) (Nat.not_lt.mpr hlong)
      · exact fun _ _ h₁ => absurd (length_of_source h₁) (Nat.not_lt.mpr hlong)
      · exact fun _ _ h₁ _ _ => absurd (length_of_source h₁) (Nat.not_lt.mpr hlong)
    | inr h =>
      obtain ⟨hfits, hcases⟩ := h
      cases hcases with
      | inl hnil =>
        rw [hnil]
        exact equalTexts_nil context
      | inr hplain => exact equalTexts_plain context hfits hplain.1 hplain.2

end Texts

/-- The characters of `length`. -/
def lengthText : List CodeUnit := [0x6c#16, 0x65#16, 0x6e#16, 0x67#16, 0x74#16, 0x68#16]

/-- A context with two of the magic strings, the empty one and `length`. -/
def lengthContext : Context where
  cpointer32Bit := false
  externalMinSize := 20
  magicStrings := [[], cesu8 lengthText]
  magicStringCount := 2
  exArray := []
  magic_empty := rfl
  magic_sorted := by decide
  magic_count := by decide
  magic_direct := by decide
  ex_sorted := by decide
  ex_limit := by decide

/-- From UTF-8 the text `length` gives the magic string, from UTF-16 it gives a string with its characters. -/
theorem length_not_equal : ¬ EqualTexts lengthContext lengthText := by
  intro h
  have hequal := (@h.alike (.utf8 (cesu8 lengthText)) (.utf16 lengthText) 0 1 ⟨rfl, by decide⟩ ⟨rfl, by decide⟩ (by decide)).equal
  have hdiff : ecmaCompareEcmaStrings (create lengthContext 0 (.utf8 (cesu8 lengthText)))
      (create lengthContext 1 (.utf16 lengthText)) = false := by decide
  rw [hdiff] at hequal
  cases hequal

end Strings
end JJS
