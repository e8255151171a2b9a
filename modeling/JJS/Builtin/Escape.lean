import JJS.Builtin.Global

/-!
# JJS.Builtin.Escape

`unescape` undoes `escape`, for every string: a code unit is escaped as itself, as two digits or as four digits, and
the decoder takes off exactly what was written for it.
-/

namespace JJS
namespace Builtin
namespace Global

open Utf8 Lit Strings

theorem hexDigitChar_eq {n : Nat} (h : n < 16) : hexDigitChar n = Percent.digit n := by
  have key : ∀ n : Fin 16, hexDigitChar n.val = Percent.digit n.val := by decide
  exact key ⟨n, h⟩

theorem byteToHex_digits {n : Nat} (h : n < 256) :
    byteToHex n = [0x25#8, Percent.digit (n / 16), Percent.digit (n % 16)] := by
  rw [byteToHex, hexDigitChar_eq (by omega), hexDigitChar_eq (Nat.mod_lt _ (by decide))]

/-! ## Escaping -/

/-- The four digits of a code unit. -/
def fourDigits (n : Nat) : List Byte :=
  [Percent.digit (n / 4096), Percent.digit (n / 256 % 16), Percent.digit (n / 16 % 16), Percent.digit (n % 16)]

/-- What is written for a code unit. -/
theorem escapeUnit_cases (u : CodeUnit) :
    (∃ b : Byte, escapeUnit u = [b] ∧ b.toNat = u.toNat ∧ b.toNat < 0x80 ∧ b ≠ Percent.sign) ∨
      (u.toNat < 256 ∧ escapeUnit u = [0x25#8, Percent.digit (u.toNat / 16), Percent.digit (u.toNat % 16)]) ∨
      escapeUnit u = 0x25#8 :: 0x75#8 :: fourDigits u.toNat := by
  have hlt := u.isLt
  have hascii : u ≤ 0x7f#16 ↔ u.toNat ≤ 0x7f := BitVec.le_def
  have hlarge : 0xff#16 < u ↔ 0xff < u.toNat := BitVec.lt_def
  rw [escapeUnit]
  by_cases hu : u.toNat ≤ 0x7f
  · rw [if_pos (hascii.mpr hu)]
    split
    · rename_i hin
      have hwide : (u.setWidth 32 : CodePoint).toNat = u.toNat := by
        rw [BitVec.toNat_setWidth]
        exact Nat.mod_eq_of_lt (by omega)
      have hbyte : (BitVec.ofNat 8 u.toNat).toNat = u.toNat := by
        rw [BitVec.toNat_ofNat]
        exact Nat.mod_eq_of_lt (by omega)
      refine .inl ⟨BitVec.ofNat 8 u.toNat, ?_, hbyte, by omega, ?_⟩
      · rw [litCodePointToCesu8Bytes_small (by omega), hwide, encode, if_pos (by omega)]
      · intro hsign
        rw [hsign] at hbyte
        rw [← hbyte] at hin
        exact Bool.false_ne_true hin
    · exact .inr (.inl ⟨by omega, byteToHex_digits (by omega)⟩)
  · rw [if_neg (fun h => hu (hascii.mp h))]
    by_cases hu' : 0xff < u.toNat
    · have hhigh : (u >>> 8).toNat = u.toNat / 256 := by
        rw [BitVec.toNat_ushiftRight, Nat.shiftRight_eq_div_pow]
      have hlow : (u &&& 0xff#16).toNat = u.toNat % 256 := by
        have hmask : (0xff#16).toNat = 2 ^ 8 - 1 := rfl
        rw [BitVec.toNat_and, hmask, Nat.and_two_pow_sub_one_eq_mod]
      have h1 : u.toNat / 256 / 16 = u.toNat / 4096 := by omega
      have h2 : u.toNat % 256 / 16 = u.toNat / 16 % 16 := by omega
      have h3 : u.toNat % 256 % 16 = u.toNat % 16 := by omega
      rw [if_pos (hlarge.mpr hu'), hhigh, hlow, byteToHex_digits (by omega), byteToHex_digits (by omega), h1, h2, h3]
      exact .inr (.inr rfl)
    · rw [if_neg (fun h => hu' (hlarge.mp h))]
      exact .inr (.inl ⟨by omega, byteToHex_digits (by omega)⟩)

theorem escapeLoop_eq {steps : Nat} (us : List CodeUnit) (h : (cesu8 us).length ≤ steps) :
    escapeLoop steps (cesu8 us) = some (us.flatMap escapeUnit) := by
  induction us generalizing steps with
  | nil =>
    rw [cesu8_nil, escapeLoop]
    rfl
  | cons u us ih =>
    have hread := litReadCodeUnitFromCesu8_append u (cesu8 us)
    have hpos := length_encode_pos u.toNat
    have hdrop : (encode u.toNat ++ cesu8 us).drop (encode u.toNat).length = cesu8 us := List.drop_left
    rw [cesu8_cons, List.length_append] at h
    rw [cesu8_cons]
    obtain ⟨b, s, hs⟩ := List.exists_cons_of_ne_nil (show encode u.toNat ++ cesu8 us ≠ [] by
      rw [ne_eq, List.append_eq_nil_iff, not_and_or]
      exact .inl (List.length_pos_iff.mp hpos))
    obtain ⟨steps, rfl⟩ : ∃ n, steps = n + 1 := ⟨steps - 1, by omega⟩
    rw [hs] at hread hdrop
    rw [hs, escapeLoop, hread, Option.bind_eq_bind, Option.bind_some]
    dsimp only
    rw [hdrop, ih (by omega)]
    rfl

/-! ## Unescaping -/

theorem resolve_digit (chr : CodeUnit) {n : Nat} (h : n < 16) (buffer : List Byte) :
    resolveLoop chr (Percent.digit n :: buffer) = resolveLoop ((chr <<< 4) + BitVec.ofNat 16 n) buffer := by
  have hdigit := Percent.hexDigit_digit h
  rw [hexDigit_eq] at hdigit
  rw [resolveLoop]
  split at hdigit
  · rename_i hhex
    rw [if_pos hhex, Option.some.inj hdigit]
  · cases hdigit

theorem toNat_shift_add (chr : CodeUnit) {n : Nat} (h : n < 16) (hchr : chr.toNat < 2 ^ 12) :
    ((chr <<< 4) + BitVec.ofNat 16 n).toNat = chr.toNat * 16 + n := by
  rw [BitVec.toNat_add, BitVec.toNat_shiftLeft, BitVec.toNat_ofNat, Nat.shiftLeft_eq]
  omega

theorem resolve_two {u : CodeUnit} (h : u.toNat < 256) :
    resolveLoop 0#16 [Percent.digit (u.toNat / 16), Percent.digit (u.toNat % 16)] = some u := by
  have hlow : u.toNat % 16 < 16 := Nat.mod_lt _ (by decide)
  have hhigh : u.toNat / 16 < 16 := by omega
  have hzero : (0#16).toNat = 0 := rfl
  have h1 := toNat_shift_add 0#16 hhigh (by omega)
  have h2 := toNat_shift_add ((0#16 <<< 4) + BitVec.ofNat 16 (u.toNat / 16)) hlow (by omega)
  rw [resolve_digit _ hhigh, resolve_digit _ hlow, resolveLoop]
  exact congrArg some (BitVec.eq_of_toNat_eq (by omega))

theorem resolve_four (u : CodeUnit) : resolveLoop 0#16 (fourDigits u.toNat) = some u := by
  have hlt := u.isLt
  have hzero : (0#16).toNat = 0 := rfl
  have ha : u.toNat / 4096 < 16 := by omega
  have hb : u.toNat / 256 % 16 < 16 := Nat.mod_lt _ (by decide)
  have hc : u.toNat / 16 % 16 < 16 := Nat.mod_lt _ (by decide)
  have hd : u.toNat % 16 < 16 := Nat.mod_lt _ (by decide)
  have h1 := toNat_shift_add 0#16 ha (by omega)
  have h2 := toNat_shift_add ((0#16 <<< 4) + BitVec.ofNat 16 (u.toNat / 4096)) hb (by omega)
  have h3 := toNat_shift_add (((0#16 <<< 4) + BitVec.ofNat 16 (u.toNat / 4096)) <<< 4 + BitVec.ofNat 16 (u.toNat / 256 % 16))
    hc (by omega)
  have h4 := toNat_shift_add ((((0#16 <<< 4) + BitVec.ofNat 16 (u.toNat / 4096)) <<< 4 +
    BitVec.ofNat 16 (u.toNat / 256 % 16)) <<< 4 + BitVec.ofNat 16 (u.toNat / 16 % 16)) hd (by omega)
  rw [fourDigits, resolve_digit _ ha, resolve_digit _ hb, resolve_digit _ hc, resolve_digit _ hd, resolveLoop]
  exact congrArg some (BitVec.eq_of_toNat_eq (by omega))

/-- The escape that is found at a percent sign: its size and its code unit. -/
def resolveEscape (input : List Byte) (chr : CodeUnit) : Nat × CodeUnit :=
  if chr = 0x25#16 then
    if 5 ≤ input.length ∧ input.head? = some 0x75#8 then unescapeResolveEscape input true chr
    else if 2 ≤ input.length then unescapeResolveEscape input false chr
    else (0, chr)
  else (0, chr)

/-- One turn of the loop at a character of ASCII. -/
theorem unescapeLoop_ascii {b : Byte} (h : b.toNat < 0x80) (steps : Nat) (input : List Byte) :
    unescapeLoop (steps + 1) (b :: input) =
      (unescapeLoop steps (input.drop (resolveEscape input (b.setWidth 16)).1)).map fun rest =>
        encode (resolveEscape input (b.setWidth 16)).2.toNat ++ rest := by
  have hread : litReadCodeUnitFromCesu8 (b :: input) = some (1, b.setWidth 16) := by
    obtain ⟨h1, h2⟩ := lead_one b h
    have hmask : b &&& 0x7f#8 = b := by
      have hseven : (0x7f#8).toNat = 2 ^ 7 - 1 := rfl
      apply BitVec.eq_of_toNat_eq
      rw [BitVec.toNat_and, hseven, Nat.and_two_pow_sub_one_eq_mod, h2]
    rw [litReadCodeUnitFromCesu8, if_pos h1, hmask]
  rw [unescapeLoop, hread, Option.bind_eq_bind, Option.bind_some]
  dsimp only
  rw [show List.drop 1 (b :: input) = input from rfl, ← resolveEscape]
  generalize resolveEscape input (b.setWidth 16) = r
  have hwide : (r.2.setWidth 32 : CodePoint).toNat = r.2.toNat := by
    have hlt := r.2.isLt
    rw [BitVec.toNat_setWidth]
    exact Nat.mod_eq_of_lt (by omega)
  have hwritten : litCodePointToCesu8Bytes (r.2.setWidth 32) = encode r.2.toNat := by
    have hlt := r.2.isLt
    rw [litCodePointToCesu8Bytes_small (by omega), hwide]
  rw [hwritten]
  cases unescapeLoop steps (input.drop r.1) with
  | none => rfl
  | some rest => rfl

/-- A sequence whose digits are read. -/
theorem unescapeResolveEscape_some {buffer : List Byte} {unicodeSequence : Bool} {chr unescapedChr : CodeUnit}
    (h : resolveLoop 0#16 ((buffer.take (if unicodeSequence then 5 else 2)).drop (if unicodeSequence then 1 else 0)) =
      some unescapedChr) :
    unescapeResolveEscape buffer unicodeSequence chr = (if unicodeSequence then 5 else 2, unescapedChr) := by
  simp only [unescapeResolveEscape, h]

/-- The decoder takes off what was written for a code unit. -/
theorem unescapeLoop_unit (u : CodeUnit) (steps : Nat) (input : List Byte) :
    unescapeLoop (steps + 1) (escapeUnit u ++ input) =
      (unescapeLoop steps input).map fun rest => encode u.toNat ++ rest := by
  have hsign : (0x25#8 : Byte).toNat < 0x80 := by decide
  have hwide : ((0x25#8 : Byte).setWidth 16 : CodeUnit) = 0x25#16 := by decide
  cases escapeUnit_cases u with
  | inl hplain =>
    obtain ⟨b, hb, hvalue, hascii, hne⟩ := hplain
    have hchr : (b.setWidth 16 : CodeUnit) = u := by
      apply BitVec.eq_of_toNat_eq
      rw [BitVec.toNat_setWidth, hvalue]
      exact Nat.mod_eq_of_lt u.isLt
    have hnot : ¬(b.setWidth 16 : CodeUnit) = 0x25#16 := by
      intro heq
      apply hne
      apply BitVec.eq_of_toNat_eq
      rw [hvalue, ← hchr, heq]
      rfl
    have hresolve : resolveEscape input (b.setWidth 16) = (0, u) := by
      rw [resolveEscape, if_neg hnot, hchr]
    rw [hb, List.singleton_append, unescapeLoop_ascii hascii, hresolve]
    rfl
  | inr hescape =>
    cases hescape with
    | inl htwo =>
      obtain ⟨hu, htwo⟩ := htwo
      have hdigit := Percent.digit_bounds (show u.toNat / 16 < 16 by omega)
      have hhead : ¬(Percent.digit (u.toNat / 16)) = 0x75#8 := by
        intro heq
        rw [heq] at hdigit
        exact absurd hdigit.2 (by decide)
      have hresolve : resolveEscape (Percent.digit (u.toNat / 16) :: Percent.digit (u.toNat % 16) :: input) 0x25#16 =
          (2, u) := by
        rw [resolveEscape, if_pos rfl, if_neg (fun h => hhead (Option.some.inj h.2)), if_pos
          (by rw [List.length_cons, List.length_cons]; omega)]
        exact unescapeResolveEscape_some (resolve_two hu)
      rw [htwo]
      show unescapeLoop (steps + 1) (0x25#8 :: (Percent.digit (u.toNat / 16) :: Percent.digit (u.toNat % 16) :: input)) = _
      rw [unescapeLoop_ascii hsign, hwide, hresolve]
      rfl
    | inr hfour =>
      have hresolve : resolveEscape (0x75#8 :: (fourDigits u.toNat ++ input)) 0x25#16 = (5, u) := by
        have hlen : 5 ≤ (0x75#8 :: (fourDigits u.toNat ++ input)).length := by
          rw [List.length_cons, List.length_append]
          show 5 ≤ 4 + input.length + 1
          omega
        rw [resolveEscape, if_pos rfl, if_pos ⟨hlen, rfl⟩]
        exact unescapeResolveEscape_some (resolve_four u)
      rw [hfour]
      show unescapeLoop (steps + 1) (0x25#8 :: (0x75#8 :: (fourDigits u.toNat ++ input))) = _
      rw [unescapeLoop_ascii hsign, hwide, hresolve]
      rfl

theorem unescapeLoop_eq {steps : Nat} (us : List CodeUnit) (h : (us.flatMap escapeUnit).length ≤ steps) :
    unescapeLoop steps (us.flatMap escapeUnit) = some (cesu8 us) := by
  induction us generalizing steps with
  | nil =>
    rw [List.flatMap_nil, unescapeLoop]
    rfl
  | cons u us ih =>
    have hpos : 0 < (escapeUnit u).length := by
      cases escapeUnit_cases u with
      | inl hplain =>
        obtain ⟨b, hb, -⟩ := hplain
        rw [hb]
        exact Nat.one_pos
      | inr hescape =>
        cases hescape with
        | inl htwo =>
          rw [htwo.2]
          exact Nat.succ_pos _
        | inr hfour =>
          rw [hfour]
          exact Nat.succ_pos _
    rw [List.flatMap_cons, List.length_append] at h
    obtain ⟨steps, rfl⟩ : ∃ n, steps = n + 1 := ⟨steps - 1, by omega⟩
    rw [List.flatMap_cons, unescapeLoop_unit, ih (by omega)]
    rfl

/-- Every string is what its escape is decoded to. -/
theorem unescape_escape (us : List CodeUnit) :
    ∃ t, escape (cesu8 us) = some t ∧ unescape t = some (cesu8 us) := by
  refine ⟨us.flatMap escapeUnit, escapeLoop_eq us (Nat.le_refl _), ?_⟩
  rw [unescape]
  split
  · rename_i hempty
    have hnil := List.isEmpty_iff.mp hempty
    have hloop := unescapeLoop_eq us (Nat.le_refl _)
    rw [hnil] at hloop
    rw [← hloop]
    rfl
  · exact unescapeLoop_eq us (Nat.le_refl _)

end Global
end Builtin
end JJS
