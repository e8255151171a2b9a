import JJS.Strings.Special
import Mathlib.Data.List.Chain

/-!
# JJS.Strings.Create

What each constructor makes of a text. The text of a string with characters is the CESU-8 of its code units
(`Holds`), whichever constructor made it; the length is the number of code units, except that
`ecma_new_ecma_string_from_utf16` counts a surrogate pair once (`fromUtf16_spec`).
-/

namespace JJS
namespace Strings

open Utf8 Lit
open Hashset (litUtf8StringCalcHash)

/-- A descriptor with the characters `s` and the length `n`. -/
structure Holds (s : List Byte) (n : Nat) (descriptor : Descriptor) : Prop where
  chars : ecmaCompareGetStringChars descriptor = some (s, s.length, n)
  hash : descriptor.hash = litUtf8StringCalcHash s

theorem buffer_holds {s : List Byte} {n : Nat} (hne : s ≠ []) (hn : n ≤ s.length) :
    Holds s n (ecmaNewEcmaStringFromUtf8Buffer n s.length (litUtf8StringCalcHash s) s) := by
  have hpos : 0 < s.length := List.length_pos_iff.mpr hne
  rw [ecmaNewEcmaStringFromUtf8Buffer]
  by_cases hshort : s.length ≤ 2 ^ 16 - 1
  · rw [if_pos hshort]
    by_cases hascii : n = s.length ∧ s.length ≤ 2 ^ 8 - 1 + 1
    · rw [if_pos hascii]
      have hsize : asciiStringGetSize (BitVec.ofNat 8 (s.length - 1)) = s.length := by
        rw [asciiStringGetSize, BitVec.toNat_ofNat, Nat.mod_eq_of_lt (by omega)]
        omega
      refine ⟨?_, rfl⟩
      rw [ecmaCompareGetStringChars, hsize, hascii.1]
    · rw [if_neg hascii]
      refine ⟨?_, rfl⟩
      rw [ecmaCompareGetStringChars, BitVec.toNat_ofNat, BitVec.toNat_ofNat, Nat.mod_eq_of_lt (by omega),
        Nat.mod_eq_of_lt (by omega)]
  · rw [if_neg hshort]
    exact ⟨rfl, rfl⟩

/-! ## Code units -/

theorem litCodeUnitToUtf8_eq (u : CodeUnit) : litCodeUnitToUtf8 u = encode u.toNat := by
  have hu := u.isLt
  have hwide : (u.setWidth 32 : CodePoint).toNat = u.toNat := by
    rw [BitVec.toNat_setWidth, Nat.mod_eq_of_lt (by omega)]
  have hsmall := @litCodePointToCesu8Bytes_small (u.setWidth 32) (by rw [hwide]; omega)
  rw [hwide] at hsmall
  rw [← hsmall, litCodeUnitToUtf8, litCodePointToCesu8Bytes]
  dsimp only
  have h1 : u ≤ 0x7f#16 ↔ (u.setWidth 32 : CodePoint) < 0x80#32 := by
    rw [BitVec.le_def, BitVec.lt_def, hwide]
    exact Nat.lt_succ_iff.symm
  have h2 : u ≤ 0x7ff#16 ↔ (u.setWidth 32 : CodePoint) < 0x800#32 := by
    rw [BitVec.le_def, BitVec.lt_def, hwide]
    exact Nat.lt_succ_iff.symm
  have h3 : (u.setWidth 32 : CodePoint) < 0x10000#32 := by
    rw [BitVec.lt_def, hwide]
    exact hu
  by_cases c1 : u ≤ 0x7f#16
  · rw [if_pos c1, if_pos (h1.mp c1), BitVec.setWidth_setWidth_of_le _ (by decide)]
  · rw [if_neg c1, if_neg (fun h => c1 (h1.mpr h))]
    by_cases c2 : u ≤ 0x7ff#16
    · rw [if_pos c2, if_pos (h2.mp c2)]
    · rw [if_neg c2, if_neg (fun h => c2 (h2.mpr h)), if_pos h3]

theorem cesu8_ne_nil {us : List CodeUnit} (h : us ≠ []) : cesu8 us ≠ [] := by
  have hle := length_le_cesu8 us
  have hpos := List.length_pos_iff.mpr h
  exact List.length_pos_iff.mp (by omega)

/-- The first byte of a code unit tells how many bytes it has. -/
theorem charSize_encode (u : CodeUnit) :
    ∃ b s, encode u.toNat = b :: s ∧ litGetUnicodeCharSizeByUtf8FirstByte b = s.length + 1 := by
  have hseq : Sequence 0x90 (encode u.toNat) := (unitPoint u).sequence
  have hu := u.isLt
  cases hcase : encode u.toNat with
  | nil => exact absurd hcase hseq.ne_nil
  | cons b s =>
    rw [hcase] at hseq
    refine ⟨b, s, rfl, ?_⟩
    rw [litGetUnicodeCharSizeByUtf8FirstByte]
    cases hseq with
    | one ha => rw [if_pos (lead_one b ha).1]; rfl
    | two h1 h2 _ =>
      obtain ⟨hm, hm'⟩ := lead_two b ⟨h1, h2⟩
      rw [if_neg hm, if_pos hm']
      rfl
    | three h1 h2 _ _ _ =>
      obtain ⟨hm, hm', _⟩ := lead_three b ⟨h1, h2⟩
      rw [if_neg hm, if_neg hm']
      rfl
    | four _ _ _ _ _ _ _ =>
      rw [encode] at hcase
      split at hcase
      · simp at hcase
      · split at hcase
        · simp at hcase
        · simp at hcase

theorem stringLengthLoop_cesu8 {steps : Nat} {us : List CodeUnit} (h : (cesu8 us).length ≤ steps) :
    stringLengthLoop steps (cesu8 us) = us.length := by
  induction us generalizing steps with
  | nil =>
    cases steps with
    | zero => rfl
    | succ steps => rfl
  | cons u us ih =>
    obtain ⟨b, s, hencode, hsize⟩ := charSize_encode u
    rw [cesu8_cons, hencode, List.cons_append, List.length_cons, List.length_append] at h
    cases steps with
    | zero => omega
    | succ steps =>
      rw [cesu8_cons, hencode, List.cons_append, stringLengthLoop, hsize, List.drop_succ_cons, List.drop_left,
        ih (by omega), List.length_cons]

/-- The length of a CESU-8 string is the number of its code units. -/
theorem litUtf8StringLength_cesu8 (us : List CodeUnit) : litUtf8StringLength (cesu8 us) = us.length :=
  stringLengthLoop_cesu8 (Nat.le_refl _)

/-! ## From CESU-8 -/

section Cesu8

variable (context : Context) (address : Nat) {us : List CodeUnit}

theorem cesu8_ne_nil_of_find (h : ecmaFindSpecialString context address (cesu8 us) = none) : cesu8 us ≠ [] := by
  intro hnil
  rw [(find_empty_iff context address).mpr hnil] at h
  cases h

theorem fromUtf8_special {s : List Byte} {string : EcmaString} (h : ecmaFindSpecialString context address s = some string) :
    ecmaNewEcmaStringFromUtf8 context address s = string := by
  rw [ecmaNewEcmaStringFromUtf8, h]

theorem fromUtf8_spec (h : ecmaFindSpecialString context address (cesu8 us) = none) :
    ∃ d, ecmaNewEcmaStringFromUtf8 context address (cesu8 us) = .heap address d ∧ Holds (cesu8 us) us.length d := by
  refine ⟨_, ?_, buffer_holds (cesu8_ne_nil_of_find context address h) (length_le_cesu8 us)⟩
  rw [ecmaNewEcmaStringFromUtf8, h, litUtf8StringLength_cesu8]

/-- A string builder makes the string that the constructor from the same bytes makes. -/
theorem stringbuilder_eq (s : List Byte) :
    ecmaStringbuilderFinalize context address s = ecmaNewEcmaStringFromUtf8 context address s := by
  rw [ecmaStringbuilderFinalize, ecmaNewEcmaStringFromUtf8]
  cases ecmaFindSpecialString context address s with
  | some special => rfl
  | none =>
    dsimp only
    rw [ecmaNewEcmaStringFromUtf8Buffer]
    by_cases hshort : s.length ≤ 2 ^ 16 - 1
    · rw [if_pos hshort, if_pos hshort]
      by_cases hascii : litUtf8StringLength s = s.length ∧ s.length ≤ 2 ^ 8 - 1 + 1
      · rw [if_pos ⟨hshort, hascii⟩, if_pos hascii]
      · rw [if_neg (fun h => hascii h.2), if_neg hascii]
    · rw [if_neg hshort, if_neg (fun h => hshort h.1), if_neg hshort]

theorem external_special {s : List Byte} {string : EcmaString} (h : ecmaFindSpecialString context address s = some string) :
    ecmaNewEcmaExternalStringFromCesu8 context address s = string := by
  rw [ecmaNewEcmaExternalStringFromCesu8]
  split
  · exact fromUtf8_special context address h
  · rw [h]

theorem external_spec (h : ecmaFindSpecialString context address (cesu8 us) = none) :
    ∃ d, ecmaNewEcmaExternalStringFromCesu8 context address (cesu8 us) = .heap address d ∧
      Holds (cesu8 us) us.length d := by
  rw [ecmaNewEcmaExternalStringFromCesu8]
  split
  · exact fromUtf8_spec context address h
  · rw [h]
    refine ⟨_, rfl, ?_, rfl⟩
    rw [ecmaCompareGetStringChars, litUtf8StringLength_cesu8]

end Cesu8

/-! ## From UTF-16 -/

/-- The code points of UTF-16 code units that are a pair, and its surrogates again. -/
theorem surrogates_of_pair {u v : CodeUnit} (hu : IsHighUnit u) (hv : IsLowUnit v) :
    litCodePointToCesu8 (((u &&& 0x3ff#16).setWidth 32 <<< 10) + (v &&& 0x3ff#16).setWidth 32 + 0x10000#32) =
      encode u.toNat ++ encode v.toNat := by
  obtain ⟨a, ha, hua⟩ : ∃ a, a < 2 ^ 10 ∧ u.toNat = 0xD800 + a := ⟨u.toNat - 0xD800, by have := hu.2; omega, by have := hu.1; omega⟩
  obtain ⟨b, hb, hvb⟩ : ∃ b, b < 2 ^ 10 ∧ v.toNat = 0xDC00 + b := ⟨v.toNat - 0xDC00, by have := hv.2; omega, by have := hv.1; omega⟩
  have hmask : (0x3ff#16 : CodeUnit).toNat = 2 ^ 10 - 1 := rfl
  have hmask' : (0x3ff#32 : CodePoint).toNat = 2 ^ 10 - 1 := rfl
  have hlow : ((u &&& 0x3ff#16).setWidth 32 : CodePoint).toNat = a := by
    rw [BitVec.toNat_setWidth, BitVec.toNat_and, hmask, Nat.and_two_pow_sub_one_eq_mod]
    omega
  have hlow' : ((v &&& 0x3ff#16).setWidth 32 : CodePoint).toNat = b := by
    rw [BitVec.toNat_setWidth, BitVec.toNat_and, hmask, Nat.and_two_pow_sub_one_eq_mod]
    omega
  have hconst : (0x10000#32 : CodePoint).toNat = 0x10000 := rfl
  have hcp : (((u &&& 0x3ff#16).setWidth 32 <<< 10) + (v &&& 0x3ff#16).setWidth 32 + 0x10000#32 : CodePoint).toNat =
      a * 2 ^ 10 + b + 0x10000 := by
    rw [BitVec.toNat_add, BitVec.toNat_add, BitVec.toNat_shiftLeft, hlow, hlow', hconst, Nat.shiftLeft_eq]
    omega
  generalize (((u &&& 0x3ff#16).setWidth 32 <<< 10) + (v &&& 0x3ff#16).setWidth 32 + 0x10000#32 : CodePoint) = cp at hcp
  have hhigh : convertCodePointToHighSurrogate cp = u := by
    apply BitVec.eq_of_toNat_eq
    have hrest : ((cp - 0x10000#32) >>> 10).toNat = a := by
      rw [toNat_shift, BitVec.toNat_sub_of_le (by rw [BitVec.le_def, hcp, hconst]; omega), hcp, hconst]
      omega
    have hmarker : (0xd800#16 : CodeUnit).toNat = 2 ^ 10 * 54 := rfl
    rw [convertCodePointToHighSurrogate, BitVec.toNat_or, BitVec.toNat_setWidth, hrest, hmarker,
      Nat.mod_eq_of_lt (by omega), ← Nat.two_pow_add_eq_or_of_lt ha, hua]
  have hlowSurrogate : convertCodePointToLowSurrogate cp = v := by
    apply BitVec.eq_of_toNat_eq
    have hmarker : (0xdc00#16 : CodeUnit).toNat = 2 ^ 10 * 55 := rfl
    have hrest : cp.toNat % 2 ^ 10 = b := by
      rw [hcp]
      omega
    rw [convertCodePointToLowSurrogate, BitVec.toNat_or, BitVec.toNat_setWidth, BitVec.toNat_and, hmask',
      Nat.and_two_pow_sub_one_eq_mod, hrest, hmarker, Nat.mod_eq_of_lt (by omega), ← Nat.two_pow_add_eq_or_of_lt hb, hvb]
  have hlarge : ¬ cp ≤ 0xffff#32 := by
    rw [BitVec.le_def, hcp]
    show ¬ _ ≤ 0xffff
    omega
  rw [litCodePointToCesu8, if_neg hlarge, hhigh, hlowSurrogate, litCodeUnitToUtf8_eq, litCodeUnitToUtf8_eq]

theorem litCodePointToCesu8_unit (u : CodeUnit) : litCodePointToCesu8 (u.setWidth 32) = encode u.toNat := by
  have hu := u.isLt
  have hsmall : (u.setWidth 32 : CodePoint) ≤ 0xffff#32 := by
    rw [BitVec.le_def, BitVec.toNat_setWidth, Nat.mod_eq_of_lt (by omega)]
    show u.toNat ≤ 0xffff
    omega
  rw [litCodePointToCesu8, if_pos hsmall, BitVec.setWidth_setWidth_of_le _ (by decide), BitVec.setWidth_eq,
    litCodeUnitToUtf8_eq]

/-- The loops over UTF-16 write the CESU-8 of its code units. -/
theorem cesu8_utf16CodePoints (us : List CodeUnit) :
    ((utf16CodePoints us).map litCodePointToCesu8).flatten = cesu8 us := by
  induction us using utf16CodePoints.induct with
  | case1 => rfl
  | case2 u =>
    rw [utf16CodePoints, List.map_singleton, List.flatten_singleton, litCodePointToCesu8_unit, cesu8_cons, cesu8_nil,
      List.append_nil]
  | case3 u v us hpair ih =>
    rw [utf16CodePoints, if_pos hpair, List.map_cons, List.flatten_cons, ih,
      surrogates_of_pair ((litIsHighSurrogate_iff u).mp hpair.1) ((litIsLowSurrogate_iff v).mp hpair.2), cesu8_cons,
      cesu8_cons, List.append_assoc]
  | case4 u v us hpair ih =>
    rw [utf16CodePoints, if_neg hpair, List.map_cons, List.flatten_cons, ih, litCodePointToCesu8_unit, cesu8_cons u]

/-- No high surrogate is directly followed by a low one. -/
def NoPair (us : List CodeUnit) : Prop := us.IsChain fun u v => ¬ (IsHighUnit u ∧ IsLowUnit v)

theorem utf16CodePoints_length_le (us : List CodeUnit) : (utf16CodePoints us).length ≤ us.length := by
  induction us using utf16CodePoints.induct with
  | case1 => exact Nat.le_refl 0
  | case2 u => exact Nat.le_refl 1
  | case3 u v us hpair ih =>
    rw [utf16CodePoints, if_pos hpair, List.length_cons, List.length_cons, List.length_cons]
    omega
  | case4 u v us hpair ih =>
    rw [utf16CodePoints, if_neg hpair, List.length_cons, List.length_cons (a := u)]
    omega

/-- The code points are as many as the code units just when there is no pair. -/
theorem utf16CodePoints_length_iff (us : List CodeUnit) : (utf16CodePoints us).length = us.length ↔ NoPair us := by
  have hpair_iff : ∀ u v : CodeUnit, (litIsHighSurrogate u = true ∧ litIsLowSurrogate v = true) ↔ IsHighUnit u ∧ IsLowUnit v :=
    fun u v => and_congr (litIsHighSurrogate_iff u) (litIsLowSurrogate_iff v)
  rw [NoPair]
  induction us using utf16CodePoints.induct with
  | case1 => exact iff_of_true rfl List.IsChain.nil
  | case2 u => exact iff_of_true rfl (List.IsChain.singleton u)
  | case3 u v us hpair ih =>
    have hle := utf16CodePoints_length_le us
    rw [utf16CodePoints, if_pos hpair, List.length_cons, List.length_cons, List.length_cons, List.isChain_cons_cons]
    refine iff_of_false (by omega) (fun h => h.1 ((hpair_iff u v).mp hpair))
  | case4 u v us hpair ih =>
    rw [utf16CodePoints, if_neg hpair, List.length_cons, List.length_cons (a := u), Nat.add_right_cancel_iff,
      List.isChain_cons_cons, and_iff_right (fun h => hpair ((hpair_iff u v).mpr h))]
    exact ih

theorem length_flatten_map (cps : List CodePoint) :
    (cps.map fun cp => (litCodePointToCesu8 cp).length).sum = ((cps.map litCodePointToCesu8).flatten).length := by
  rw [List.length_flatten, List.map_map]
  rfl

/-- With enough room everything is written. -/
theorem convert_eq {size : Nat} (cps : List CodePoint) (out : List Byte)
    (h : out.length + ((cps.map litCodePointToCesu8).flatten).length ≤ size) :
    cps.foldl (fun out cp =>
      if out.length + (litCodePointToCesu8 cp).length ≤ size then out ++ litCodePointToCesu8 cp else out) out =
      out ++ (cps.map litCodePointToCesu8).flatten := by
  induction cps generalizing out with
  | nil => rw [List.foldl_nil, List.map_nil, List.flatten_nil, List.append_nil]
  | cons cp cps ih =>
    rw [List.map_cons, List.flatten_cons, List.length_append] at h
    rw [List.foldl_cons, if_pos (by omega), ih _ (by rw [List.length_append]; omega), List.map_cons, List.flatten_cons,
      List.append_assoc]

section Utf16

variable {us : List CodeUnit}

theorem measure_size (us : List CodeUnit) : (litUtf16AsCesu8Measure us).2 = (cesu8 us).length % 2 ^ 32 := by
  rw [litUtf16AsCesu8Measure]
  dsimp only
  rw [length_flatten_map, cesu8_utf16CodePoints]

/-- When the size fits in 32 bits, the string has the characters of the text, and a surrogate pair counts once. -/
theorem fromUtf16_spec (address : Nat) (hne : us ≠ []) (hfits : (cesu8 us).length < 2 ^ 32) :
    ∃ d, ecmaNewEcmaStringFromUtf16 address us = .heap address d ∧ Holds (cesu8 us) (utf16CodePoints us).length d := by
  have hle := utf16CodePoints_length_le us
  have hlen := length_le_cesu8 us
  have hsize := measure_size us
  rw [Nat.mod_eq_of_lt hfits] at hsize
  have hcount : (litUtf16AsCesu8Measure us).1 = (utf16CodePoints us).length := Nat.mod_eq_of_lt (by omega)
  have hwritten : litConvertUtf16StringToCesu8String us (cesu8 us).length = cesu8 us := by
    have heq := @convert_eq (cesu8 us).length (utf16CodePoints us) []
      (by rw [cesu8_utf16CodePoints, List.length_nil, Nat.zero_add])
    rw [cesu8_utf16CodePoints, List.nil_append] at heq
    exact heq
  refine ⟨_, ?_, buffer_holds (cesu8_ne_nil hne) (Nat.le_trans hle hlen)⟩
  have hpos := List.length_pos_iff.mpr hne
  rw [ecmaNewEcmaStringFromUtf16, if_neg (by omega)]
  dsimp only
  rw [hsize, hcount, hwritten, Nat.sub_self, List.replicate_zero, List.append_nil]

end Utf16

/-! ## From UTF-8 -/

theorem isFourByteMarker_iff (b : Byte) : isFourByteMarker b = true ↔ 0xF0 ≤ b.toNat ∧ b.toNat < 0xF8 := by
  have key : ∀ b : Byte, isFourByteMarker b = decide (0xF0 ≤ b.toNat ∧ b.toNat < 0xF8) := by
    decide +kernel
  rw [key, decide_eq_true_iff]

/-- Bytes that begin no character of four bytes are copied. -/
theorem convertedCopy_append {s : List Byte} (hs : ∀ b ∈ s, ¬ isFourByteMarker b = true) (r : List Byte) :
    convertedCopy (s ++ r) = s ++ convertedCopy r := by
  induction s with
  | nil => rfl
  | cons b s ih =>
    rw [List.cons_append, convertedCopy.eq_def]
    dsimp only
    rw [if_neg (hs b List.mem_cons_self), ih fun x hx => hs x (List.mem_cons_of_mem b hx), List.cons_append]

theorem not_marker_of_cont {b : Byte} (h : Cont b) : ¬ isFourByteMarker b = true := by
  rw [isFourByteMarker_iff]
  have := h.2
  omega

theorem toNat_fourByte (a b c d : Byte) :
    ((a.setWidth 32 &&& 0x07#32) <<< 18 ||| ((b.setWidth 32 &&& 0x3f#32) <<< 12) ||| ((c.setWidth 32 &&& 0x3f#32) <<< 6) |||
      (d.setWidth 32 &&& 0x3f#32) : CodePoint).toNat = value [a, b, c, d] := by
  have hmask : ∀ (x : Byte) (m : CodePoint) (k : Nat), m.toNat = 2 ^ k - 1 → (x.setWidth 32 &&& m : CodePoint).toNat = x.toNat % 2 ^ k := by
    intro x m k hm
    have hx := x.isLt
    rw [BitVec.toNat_and, BitVec.toNat_setWidth, Nat.mod_eq_of_lt (show x.toNat < 2 ^ 32 by omega), hm,
      Nat.and_two_pow_sub_one_eq_mod]
  have ha := hmask a 0x07#32 3 rfl
  have hb := hmask b 0x3f#32 6 rfl
  have hc := hmask c 0x3f#32 6 rfl
  have hd := hmask d 0x3f#32 6 rfl
  have ha' : a.toNat % 2 ^ 3 < 2 ^ 3 := Nat.mod_lt _ (by decide)
  have hb' : b.toNat % 2 ^ 6 < 2 ^ 6 := Nat.mod_lt _ (by decide)
  have hc' : c.toNat % 2 ^ 6 < 2 ^ 6 := Nat.mod_lt _ (by decide)
  have hd' : d.toNat % 2 ^ 6 < 2 ^ 6 := Nat.mod_lt _ (by decide)
  rw [BitVec.toNat_or, BitVec.toNat_or, BitVec.toNat_or, BitVec.toNat_shiftLeft, BitVec.toNat_shiftLeft,
    BitVec.toNat_shiftLeft, ha, hb, hc, hd, Nat.shiftLeft_eq, Nat.shiftLeft_eq, Nat.shiftLeft_eq,
    Nat.mod_eq_of_lt (show a.toNat % 2 ^ 3 * 2 ^ 18 < 2 ^ 32 by omega),
    Nat.mod_eq_of_lt (show b.toNat % 2 ^ 6 * 2 ^ 12 < 2 ^ 32 by omega),
    Nat.mod_eq_of_lt (show c.toNat % 2 ^ 6 * 2 ^ 6 < 2 ^ 32 by omega)]
  show _ = ((a.toNat % 2 ^ 3 * 2 ^ 6 + b.toNat % 2 ^ 6) * 2 ^ 6 + c.toNat % 2 ^ 6) * 2 ^ 6 + d.toNat % 2 ^ 6
  generalize a.toNat % 2 ^ 3 = p at ha' ⊢
  generalize b.toNat % 2 ^ 6 = q at hb' ⊢
  generalize c.toNat % 2 ^ 6 = r at hc' ⊢
  generalize d.toNat % 2 ^ 6 = t at hd' ⊢
  have hpq : p * 2 ^ 18 ||| q * 2 ^ 12 = 2 ^ 12 * (p * 2 ^ 6 + q) := by
    rw [Nat.mul_comm p, ← Nat.two_pow_add_eq_or_of_lt (show q * 2 ^ 12 < 2 ^ 18 by omega)]
    omega
  have hpqr : 2 ^ 12 * (p * 2 ^ 6 + q) ||| r * 2 ^ 6 = 2 ^ 6 * ((p * 2 ^ 6 + q) * 2 ^ 6 + r) := by
    rw [← Nat.two_pow_add_eq_or_of_lt (show r * 2 ^ 6 < 2 ^ 12 by omega)]
    omega
  rw [hpq, hpqr, ← Nat.two_pow_add_eq_or_of_lt hd', Nat.mul_comm (2 ^ 6)]

/-- The conversion of a character of four bytes gives its two surrogates. -/
theorem litFourByteUtf8CharToCesu8_eq {c : Point} {a b d e : Byte} (h : c.encode = [a, b, d, e]) :
    litFourByteUtf8CharToCesu8 a b d e = cesu8 c.units := by
  have hvalue := c.value_encode
  rw [h] at hvalue
  have hcp := toNat_fourByte a b d e
  rw [hvalue] at hcp
  exact litCodePointToCesu8Bytes_units hcp

/-- The code points that need four bytes. -/
def IsLong (c : Point) : Prop := 0x10000 ≤ c.val

instance (c : Point) : Decidable (IsLong c) := inferInstanceAs (Decidable (0x10000 ≤ c.val))

theorem encode_cases (c : Point) :
    (¬ IsLong c ∧ c.units.length = 1 ∧ ∀ b ∈ c.encode, ¬ isFourByteMarker b = true) ∨
      IsLong c ∧ c.units.length = 2 ∧ ∃ a b d e, c.encode = [a, b, d, e] ∧ isFourByteMarker a = true := by
  have hseq := c.sequence
  have hunits : c.units.length = if c.val < 0x10000 then 1 else 2 := by
    rw [Point.units]
    split
    · rfl
    · rfl
  have hlong : ∀ n, (c.encode.length = n ∧ n < 4 → ¬ IsLong c) ∧ (c.encode.length = 4 → IsLong c) := by
    intro n
    rw [Point.encode, Utf8.encode, IsLong]
    split
    · exact ⟨fun _ => by omega, fun h => by simp at h⟩
    · split
      · exact ⟨fun _ => by omega, fun h => by simp at h⟩
      · split
        · exact ⟨fun _ => by omega, fun h => by simp at h⟩
        · exact ⟨fun h => by simp at h; omega, fun _ => by omega⟩
  have hshort : c.encode.length < 4 → ¬ IsLong c ∧ c.units.length = 1 := by
    intro hlt
    have hnot := (hlong _).1 ⟨rfl, hlt⟩
    rw [IsLong] at hnot
    exact ⟨hnot, by rw [hunits, if_pos (by omega)]⟩
  have hmarker : ∀ b : Byte, b.toNat < 0xF0 → ¬ isFourByteMarker b = true := by
    intro b hb
    rw [isFourByteMarker_iff]
    omega
  generalize hs : c.encode = s at hseq hlong hshort
  cases hseq with
  | one ha =>
    refine Or.inl ⟨(hshort (show 1 < 4 by decide)).1, (hshort (show 1 < 4 by decide)).2, ?_⟩
    intro b hb
    rw [List.mem_singleton.mp hb]
    exact hmarker _ (by omega)
  | two _ h2 hb =>
    refine Or.inl ⟨(hshort (show 2 < 4 by decide)).1, (hshort (show 2 < 4 by decide)).2, ?_⟩
    intro x hx
    cases List.mem_cons.mp hx with
    | inl heq => rw [heq]; exact hmarker _ (by omega)
    | inr hin => rw [List.mem_singleton.mp hin]; exact not_marker_of_cont hb
  | three _ h2 hb hc _ =>
    refine Or.inl ⟨(hshort (show 3 < 4 by decide)).1, (hshort (show 3 < 4 by decide)).2, ?_⟩
    intro x hx
    cases List.mem_cons.mp hx with
    | inl heq => rw [heq]; exact hmarker _ h2
    | inr hin =>
      cases List.mem_cons.mp hin with
      | inl heq => rw [heq]; exact not_marker_of_cont hb
      | inr hin => rw [List.mem_singleton.mp hin]; exact not_marker_of_cont hc
  | four h1 h2 _ _ _ _ _ =>
    have hlongc := (hlong 4).2 rfl
    refine Or.inr ⟨hlongc, ?_, _, _, _, _, rfl, (isFourByteMarker_iff _).mpr ⟨h1, by omega⟩⟩
    rw [hunits, if_neg]
    rw [IsLong] at hlongc
    omega

/-- The code units of code points. -/
def units (cps : List Point) : List CodeUnit := cps.flatMap Point.units

theorem convertedCopy_points (cps : List Point) : convertedCopy (cps.map Point.encode).flatten = cesu8 (units cps) := by
  induction cps with
  | nil => rfl
  | cons c cps ih =>
    rw [List.map_cons, List.flatten_cons, units, List.flatMap_cons, cesu8_append]
    cases encode_cases c with
    | inl h =>
      obtain ⟨hnot, _, hbytes⟩ := h
      rw [convertedCopy_append hbytes, ih, Point.cesu8_units (Nat.lt_of_not_le hnot)]
      rfl
    | inr h =>
      obtain ⟨_, _, a, b, d, e, hencode, hmarker⟩ := h
      rw [hencode, ← litFourByteUtf8CharToCesu8_eq hencode, List.cons_append, convertedCopy.eq_def]
      dsimp only [List.cons_append, List.nil_append]
      rw [if_pos hmarker, ih]
      rfl

/-- The size that the conversion adds: two bytes for each code point that needs four. -/
def added (cps : List Point) : Nat := 2 * (cps.filter IsLong).length

theorem added_cons (c : Point) (cps : List Point) :
    added (c :: cps) = (if IsLong c then 2 else 0) + added cps := by
  rw [added, added, List.filter_cons]
  by_cases h : IsLong c
  · rw [if_pos (decide_eq_true h), if_pos h, List.length_cons]
    omega
  · rw [if_neg (by simpa using h), if_neg h, Nat.zero_add]

theorem convertedMeasure_points {steps : Nat} {cps : List Point} (h : ((cps.map Point.encode).flatten).length ≤ steps) :
    convertedMeasure steps (cps.map Point.encode).flatten = ((units cps).length, added cps) := by
  induction cps generalizing steps with
  | nil =>
    cases steps with
    | zero => rfl
    | succ steps => rfl
  | cons c cps ih =>
    rw [List.map_cons, List.flatten_cons, List.length_append] at h
    rw [List.map_cons, List.flatten_cons, units, List.flatMap_cons, List.length_append, added_cons]
    have hseq := c.sequence
    have hcases := encode_cases c
    generalize c.encode = s at h hseq hcases ⊢
    -- one character: its first byte selects the branch of the loop, and the rest of it is skipped
    cases steps with
    | zero =>
      have hpos := List.length_pos_iff.mpr hseq.ne_nil
      omega
    | succ steps =>
      cases hseq with
      | @one a ha =>
        cases hcases with
        | inr hlong => obtain ⟨_, _, _, _, _, _, heq, _⟩ := hlong; cases heq
        | inl hshort =>
          rw [List.singleton_append, convertedMeasure, if_pos (lead_one a ha).1,
            ih (by rw [List.length_singleton] at h; omega), hshort.2.1, if_neg hshort.1, Nat.add_comm 1, Nat.zero_add]
          rfl
      | @two a b h1 h2 hb =>
        cases hcases with
        | inr hlong => obtain ⟨_, _, _, _, _, _, heq, _⟩ := hlong; cases heq
        | inl hshort =>
          obtain ⟨hm, hm'⟩ := lead_two a ⟨h1, h2⟩
          rw [List.cons_append, convertedMeasure, if_neg hm, if_pos hm', List.singleton_append, List.drop_succ_cons,
            List.drop_zero, ih (by rw [List.length_cons] at h; omega), hshort.2.1, if_neg hshort.1, Nat.add_comm 1,
            Nat.zero_add]
          rfl
      | @three a b d h1 h2 hb hd _ =>
        cases hcases with
        | inr hlong => obtain ⟨_, _, _, _, _, _, heq, _⟩ := hlong; cases heq
        | inl hshort =>
          obtain ⟨hm, hm', hm''⟩ := lead_three a ⟨h1, h2⟩
          rw [List.cons_append, convertedMeasure, if_neg hm, if_neg hm', if_pos hm'', List.cons_append,
            List.singleton_append, List.drop_succ_cons, List.drop_succ_cons, List.drop_zero,
            ih (by rw [List.length_cons] at h; omega), hshort.2.1, if_neg hshort.1, Nat.add_comm 1, Nat.zero_add]
          rfl
      | @four a b d e h1 h2 hb hd he _ _ =>
        cases hcases with
        | inl hshort => exact absurd ((isFourByteMarker_iff a).mpr ⟨h1, by omega⟩) (hshort.2.2 a List.mem_cons_self)
        | inr hlong =>
          obtain ⟨hm, hm', hm'', _⟩ := lead_four a ⟨h1, h2⟩
          rw [List.cons_append, convertedMeasure, if_neg hm, if_neg hm', if_neg hm'', List.cons_append, List.cons_append,
            List.singleton_append, List.drop_succ_cons, List.drop_succ_cons, List.drop_succ_cons, List.drop_zero,
            ih (by rw [List.length_cons] at h; omega), hlong.2.1, if_pos hlong.1, Nat.add_comm 2, Nat.add_comm 2]
          rfl

theorem length_cesu8_units (cps : List Point) :
    (cesu8 (units cps)).length = added cps + ((cps.map Point.encode).flatten).length := by
  induction cps with
  | nil => rfl
  | cons c cps ih =>
    rw [units, List.flatMap_cons, cesu8_append, List.length_append, List.map_cons, List.flatten_cons, List.length_append,
      added_cons]
    have ih : (cesu8 (cps.flatMap Point.units)).length = added cps + ((cps.map Point.encode).flatten).length := ih
    by_cases hlong : IsLong c
    · cases encode_cases c with
      | inl h => exact absurd hlong h.1
      | inr h =>
        obtain ⟨_, _, a, b, d, e, hencode, _⟩ := h
        have hsix : (cesu8 c.units).length = 6 := by
          have hc := c.isLt
          have hc' : 0x10000 ≤ c.val := hlong
          rw [Point.units, if_neg (by omega), cesu8_cons, cesu8_cons, cesu8_nil, List.append_nil, List.length_append,
            BitVec.toNat_ofNat, BitVec.toNat_ofNat, encode_surrogate (by omega) (by omega),
            encode_surrogate (by omega) (by omega)]
          rfl
        have hfour : c.encode.length = 4 := by
          rw [hencode]
          rfl
        rw [if_pos hlong, hsix, hfour, ih]
        omega
    · rw [if_neg hlong, Point.cesu8_units (Nat.lt_of_not_le hlong), ih]
      omega

theorem cesu8_units_of_added {cps : List Point} (h : added cps = 0) :
    (cps.map Point.encode).flatten = cesu8 (units cps) := by
  induction cps with
  | nil => rfl
  | cons c cps ih =>
    rw [added_cons] at h
    have hnot : ¬ IsLong c := by
      intro hlong
      rw [if_pos hlong] at h
      omega
    rw [List.map_cons, List.flatten_cons, units, List.flatMap_cons, cesu8_append,
      Point.cesu8_units (Nat.lt_of_not_le hnot), ih (by omega)]
    rfl

section Converted

variable (context : Context) (address : Nat) {cps : List Point}

/-- Without a character of four bytes the bytes are taken as they are. -/
theorem converted_short (h : added cps = 0) :
    ecmaNewEcmaStringFromUtf8ConvertedToCesu8 context address (cps.map Point.encode).flatten =
      ecmaNewEcmaStringFromUtf8 context address (cesu8 (units cps)) := by
  rw [ecmaNewEcmaStringFromUtf8ConvertedToCesu8, convertedMeasure_points (Nat.le_refl _)]
  dsimp only
  rw [if_pos h, cesu8_units_of_added h]

/-- With one there is no test for a special form. -/
theorem converted_long (h : added cps ≠ 0) (hfits : (cesu8 (units cps)).length < 2 ^ 32) :
    ∃ d, ecmaNewEcmaStringFromUtf8ConvertedToCesu8 context address (cps.map Point.encode).flatten = .heap address d ∧
      Holds (cesu8 (units cps)) (units cps).length d := by
  have hne : cesu8 (units cps) ≠ [] := by
    intro hnil
    have hlength := length_cesu8_units cps
    rw [hnil, List.length_nil] at hlength
    omega
  refine ⟨_, ?_, buffer_holds hne (length_le_cesu8 _)⟩
  rw [ecmaNewEcmaStringFromUtf8ConvertedToCesu8, convertedMeasure_points (Nat.le_refl _)]
  dsimp only
  rw [if_neg h, convertedCopy_points, ← length_cesu8_units, Nat.mod_eq_of_lt hfits]

end Converted

end Strings
end JJS
