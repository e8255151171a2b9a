import JJS.BigInt.Grammar
import JJS.BigInt.ToString

/-!
# JJS.BigInt.RoundTrip

`ecma_bigint_parse_string` reads what `ecma_bigint_to_string` writes in decimal.
-/

namespace JJS
namespace BigInt

open Radix Utf8 Lit

/-! ## Decimal numerals -/

theorem hexDigit_numeralChar {d : Nat} (hd : d < 10) : Ecma404.hexDigit (numeralChar d) = some d := by
  have key : ∀ d : Fin 10, Ecma404.hexDigit (numeralChar d) = some d.val := by decide
  exact key ⟨d, hd⟩

theorem numeral_zero (radix : Nat) : numeral radix 0 = [] := by
  unfold numeral
  rw [Nat.digits_zero]
  rfl

/-- The digits of a decimal numeral are decimal digits, and the parser reads its number in them. -/
theorem numeral_decimal (n : Nat) :
    (∀ c ∈ numeral 10 n, IsDigitOf 10#32 c) ∧ textValue 10#32 0 (numeral 10 n) = n := by
  induction n using Nat.strong_induction_on with
  | h n ih =>
    cases Nat.eq_zero_or_pos n with
    | inl h0 =>
      rw [h0, numeral_zero]
      exact ⟨fun c hc => (nomatch hc), rfl⟩
    | inr hpos =>
      obtain ⟨hdigits, hvalue⟩ := ih (n / 10) (Nat.div_lt_self hpos (by decide))
      have hlast := hexDigit_numeralChar (Nat.mod_lt n (show 0 < 10 by decide))
      rw [numeral_of_pos (by decide) hpos]
      constructor
      · intro c hc
        cases List.mem_append.mp hc with
        | inl hc => exact hdigits c hc
        | inr hc =>
          rw [List.mem_singleton.mp hc]
          exact ⟨n % 10, hlast, Nat.mod_lt n (by decide)⟩
      · rw [textValue_append, hvalue]
        have hstep : textValue 10#32 (n / 10) [numeralChar (n % 10)] = n / 10 * 10 + charValue (numeralChar (n % 10)) := rfl
        rw [hstep, charValue, hlast, Option.getD_some]
        omega

theorem numeral_ne_nil {radix n : Nat} (hradix : 2 ≤ radix) (hn : 0 < n) : numeral radix n ≠ [] := by
  rw [numeral_of_pos hradix hn]
  simp

/-! ## Reading what was written -/

theorem parse_signedNumeral (v : Value) : ecmaBigintParseString (signedNumeral 10 v.toInt) = .ok v.toBlock := by
  unfold signedNumeral
  by_cases h0 : v.toInt = 0
  · have hzero : v.toBlock = Block.zero := by
      refine Value.eq_zero_of_nil ?_
      rw [← v.trimmed.val_eq_zero, ← v.natAbs_toInt, h0]
      rfl
    rw [if_pos h0, hzero]
    rfl
  · obtain ⟨hdigits, hvalue⟩ := numeral_decimal v.toInt.natAbs
    have hne : numeral 10 v.toInt.natAbs ≠ [] := numeral_ne_nil (by decide) (Int.natAbs_pos.mpr h0)
    have hfits : Fits (textValue 10#32 0 (numeral 10 v.toInt.natAbs)) := by
      rw [hvalue, v.natAbs_toInt]
      exact (fits_iff v.trimmed).mp v.fits
    have hplain := plain_digits hdigits hne (u := []) (fun c hc => (nomatch hc))
    rw [if_neg h0]
    generalize hp : (if v.toInt < 0 then [0x2d#8] else [] : List Char8) = p
    obtain ⟨v', hok, hv'⟩ := parseDigits_white (by decide) (decide (v.toInt < 0)) hdigits White.nil (Or.inl rfl) hfits
    have hmark : (p, 10#32, decide (v.toInt < 0)) ∈ marks := by
      rw [← hp]
      by_cases hneg : v.toInt < 0
      · rw [if_pos hneg, decide_eq_true hneg]
        decide
      · rw [if_neg hneg, decide_eq_false hneg]
        decide
    rw [List.append_nil] at hok hplain
    have hparse := ecmaBigintParseString_mark White.nil hmark hne (fun _ => hplain)
    rw [List.nil_append, hok] at hparse
    rw [hparse]
    congr 1
    refine Value.toBlock_eq ?_
    rw [hv', hvalue]
    by_cases hneg : v.toInt < 0
    · rw [decide_eq_true hneg, if_pos rfl]
      omega
    · rw [decide_eq_false hneg, if_neg (by decide)]
      omega

/-- The characters of a BigInt are its numeral, written behind the digits that are still to be divided and with room
for a sign before them. The decimal ones are read back as the BigInt. -/
theorem bigint_to_string_exact (wide : Bool) (v : Value) (hne : v.digits ≠ []) (radix : Digit) (hradix : 2 ≤ radix.toNat)
    (hmax : radix.toNat ≤ 36) :
    (∃ start, ecmaBigUintToString wide v.digits radix =
        .ok (start, stringBufferSize (4 * v.digits.length) radix.toNat, numeral radix.toNat (val v.digits)) ∧
      0 < start ∧ start + (numeral radix.toNat (val v.digits)).length = stringBufferSize (4 * v.digits.length) radix.toNat) ∧
    ecmaBigintToString wide v.toBlock radix = .ok ((if v.sign then [0x2d#8] else []) ++ numeral radix.toNat (val v.digits)) ∧
    ecmaBigintToString wide v.toBlock 10#32 >>= ecmaBigintParseString = .ok v.toBlock := by
  refine ⟨ecmaBigUintToString_ok wide v.trimmed hne hradix hmax, ?_, ?_⟩
  · have hpos := v.trimmed.val_pos hne
    have hnz : v.toInt ≠ 0 := by
      intro h
      rw [← v.natAbs_toInt, h] at hpos
      exact absurd hpos (by decide)
    have hsign : v.toInt < 0 ↔ v.sign = true := by
      rw [toInt_eq]
      cases v.sign with
      | true => simp only [if_true, iff_true]; omega
      | false => simp only [Bool.false_eq_true, if_false, iff_false]; omega
    rw [ecmaBigintToString_ok wide v hradix hmax, signedNumeral, if_neg hnz, v.natAbs_toInt]
    simp only [hsign]
  · rw [ecmaBigintToString_ok wide v (by decide) (by decide), ok_bind]
    exact parse_signedNumeral v

theorem bigint_to_string_exact_at :
    ecmaBigintToString true ⟨true, [255#32]⟩ 16#32 = .ok (0x2d#8 :: numeral 16 (val [255#32])) ∧
      ecmaBigintToString true ⟨true, [255#32]⟩ 10#32 >>= ecmaBigintParseString = .ok ⟨true, [255#32]⟩ :=
  (bigint_to_string_exact true (Value.ofDigits true [255#32] ⟨by decide, trimmed_singleton (by decide), by decide⟩)
    (by simp [Value.ofDigits]) 16#32 (by decide) (by decide)).2

end BigInt
end JJS
