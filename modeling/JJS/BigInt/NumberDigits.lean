import JJS.Number
import JJS.BigInt.DivDigit

/-!
# JJS.BigInt.NumberDigits

`ecma_bigint_number_to_digits`: at most three digits of a number, packed with a count of zero digits below them and a
flag for a fraction.
-/

namespace JJS
namespace BigInt

open Radix

/-! ## The packed value -/

/-- `ECMA_BIGINT_NUMBER_TO_DIGITS_GET_ZERO_SIZE`. -/
def getZeroSize (value : BitVec 32) : Nat := ((value &&& 0xffff#32) * 4#32).toNat

/-- `ECMA_BIGINT_NUMBER_TO_DIGITS_GET_DIGITS`. -/
def getDigits (value : BitVec 32) : Nat := (value >>> 20).toNat

/-- `ECMA_BIGINT_NUMBER_TO_DIGITS_GET_DIGITS_SIZE`. -/
def getDigitsSize (value : BitVec 32) : Nat := ((value >>> 20) * 4#32).toNat

/-- `ECMA_BIGINT_NUMBER_TO_DIGITS_SET_DIGITS`. -/
def setDigits (value : BitVec 32) : BitVec 32 := value <<< 20

/-- `ECMA_BIGINT_NUMBER_TO_DIGITS_HAS_FRACTION`. -/
def fractionFlag : BitVec 32 := 0x10000#32

def hasFraction (value : BitVec 32) : Bool := value &&& fractionFlag != 0#32

/-- `ecma_bigint_number_to_digits`: the packed value and the digits that are stored, which may have a zero behind them. -/
def ecmaBigintNumberToDigits (number : Number) : BitVec 32 × List Digit :=
  if number.isZero then (setDigits 0#32, [])
  else
    let biasedExp := number.biasedExp.toNat
    let fraction : BitVec 64 := number.fraction.setWidth 64
    if biasedExp < 1023 then (setDigits 0#32 ||| fractionFlag, [])
    else
      let biasedExp := biasedExp - 1023
      let fraction := fraction ||| (1#64 <<< 52)
      if biasedExp ≤ 52 then
        let flag := if biasedExp < 52 ∧ fraction <<< (biasedExp + (64 - 52)) ≠ 0#64 then fractionFlag else 0#32
        let fraction := fraction >>> (52 - biasedExp)
        let digit0 : Digit := fraction.setWidth 32
        let digit1 : Digit := (fraction >>> 32).setWidth 32
        (setDigits (if digit1 = 0#32 then 1#32 else 2#32) ||| flag, [digit0, digit1])
      else
        let digit0 : Digit := fraction.setWidth 32
        let digit1 : Digit := (fraction >>> 32).setWidth 32
        let biasedExp := biasedExp - 52
        let shiftLeft := biasedExp &&& 31
        let biasedExp := biasedExp >>> 5
        if shiftLeft = 0 then (BitVec.ofNat 32 biasedExp ||| setDigits 2#32, [digit0, digit1])
        else
          let shiftRight := 32 - shiftLeft
          let digit2 := digit1 >>> shiftRight
          let digit1 := (digit1 <<< shiftLeft) ||| (digit0 >>> shiftRight)
          let digit0 := digit0 <<< shiftLeft
          (BitVec.ofNat 32 biasedExp ||| setDigits (if digit2 = 0#32 then 2#32 else 3#32), [digit0, digit1, digit2])

/-- What a packed value says. -/
structure Packed (value : BitVec 32) (count zeros : Nat) (flag : Bool) : Prop where
  digits : getDigits value = count
  digitsSize : getDigitsSize value = 4 * count
  zeroSize : getZeroSize value = 4 * zeros
  fraction : hasFraction value = flag

theorem packed_fraction {count : Nat} (hcount : count ≤ 3) (flag : Bool) :
    Packed (setDigits (BitVec.ofNat 32 count) ||| (if flag then fractionFlag else 0#32)) count 0 flag := by
  have key : ∀ (count : Fin 4) (flag : Bool),
      getDigits (setDigits (BitVec.ofNat 32 count) ||| (if flag then fractionFlag else 0#32)) = count ∧
      getDigitsSize (setDigits (BitVec.ofNat 32 count) ||| (if flag then fractionFlag else 0#32)) = 4 * count ∧
      getZeroSize (setDigits (BitVec.ofNat 32 count) ||| (if flag then fractionFlag else 0#32)) = 4 * 0 ∧
      hasFraction (setDigits (BitVec.ofNat 32 count) ||| (if flag then fractionFlag else 0#32)) = flag := by decide
  obtain ⟨h1, h2, h3, h4⟩ := key ⟨count, by omega⟩ flag
  exact ⟨h1, h2, h3, h4⟩

theorem packed_zeros {count zeros : Nat} (hcount : count ≤ 3) (hzeros : zeros < 32) :
    Packed (BitVec.ofNat 32 zeros ||| setDigits (BitVec.ofNat 32 count)) count zeros false := by
  have key : ∀ (count : Fin 4) (zeros : Fin 32),
      getDigits (BitVec.ofNat 32 zeros ||| setDigits (BitVec.ofNat 32 count)) = count ∧
      getDigitsSize (BitVec.ofNat 32 zeros ||| setDigits (BitVec.ofNat 32 count)) = 4 * count ∧
      getZeroSize (BitVec.ofNat 32 zeros ||| setDigits (BitVec.ofNat 32 count)) = 4 * zeros ∧
      hasFraction (BitVec.ofNat 32 zeros ||| setDigits (BitVec.ofNat 32 count)) = false := by decide
  obtain ⟨h1, h2, h3, h4⟩ := key ⟨count, by omega⟩ ⟨zeros, hzeros⟩
  exact ⟨h1, h2, h3, h4⟩

/-! ## The number that is unpacked -/

/-- The digits `ds`, with `zeros` zero digits below them, are the integer part of the number, and `rest` units are left. -/
structure Unpacks (x : Number) (t : BitVec 32 × List Digit) (ds : List Digit) (zeros rest : Nat) : Prop where
  packed : Packed t.1 ds.length zeros (decide (rest ≠ 0))
  stored : t.2.take ds.length = ds
  trimmed : Trimmed ds
  zeros_of_nil : ds = [] → zeros = 0
  small : ds.length ≤ 3 ∧ zeros < 32
  rest_lt : rest < Number.one
  units : x.units = Number.one * ((2 ^ 32) ^ zeros * val ds) + rest

/-- The significand. -/
theorem toNat_significand (f : BitVec 52) : (f.setWidth 64 ||| (1#64 <<< 52)).toNat = 2 ^ 52 + f.toNat := by
  have hf := f.isLt
  have hone : (1#64 <<< 52).toNat = 1 <<< 52 := rfl
  have hset : (f.setWidth 64).toNat = f.toNat := by
    rw [BitVec.toNat_setWidth]
    exact Nat.mod_eq_of_lt (Nat.lt_trans hf (by decide))
  rw [BitVec.toNat_or, hone, hset, Nat.or_comm, ← Nat.shiftLeft_add_eq_or_of_lt hf, Nat.shiftLeft_eq, Nat.one_mul]

/-- The two digits of a number below `2 ^ 64`. -/
theorem val_two_digits (f : BitVec 64) : val [(f.setWidth 32 : Digit), (f >>> 32).setWidth 32] = f.toNat := by
  have hf := f.isLt
  rw [val_cons, val_cons, val_nil, BitVec.toNat_setWidth, BitVec.toNat_setWidth, BitVec.toNat_ushiftRight,
    Nat.shiftRight_eq_div_pow]
  omega

/-- The highest digit is left out when it is zero. -/
theorem trimmed_count (ds : List Digit) (d : Digit) (hpos : (2 ^ 32) ^ (ds.length - 1) ≤ val (ds ++ [d])) :
    ∃ es, Trimmed es ∧ es.length = (if d = 0#32 then ds.length else ds.length + 1) ∧ val es = val (ds ++ [d]) ∧
      (ds ++ [d]).take es.length = es := by
  by_cases hd : d = 0#32
  · rw [hd, val_concat, BitVec.toNat_zero, Nat.mul_zero, Nat.add_zero] at hpos ⊢
    exact ⟨ds, trimmed_of_pow_le hpos, (if_pos rfl).symm, rfl, List.take_left⟩
  · refine ⟨ds ++ [d], trimmed_concat.mpr hd, ?_, rfl, List.take_length⟩
    rw [if_neg hd, List.length_append, List.length_singleton]

section

variable {x : Number}

/-- Below one there is only a fraction. -/
theorem units_lt_one (h : x.biasedExp.toNat < 1023) : x.units < Number.one := by
  have hf := x.fraction.isLt
  have hone : Number.one = 2 ^ 53 * 2 ^ 1021 := by rw [← pow_add, Number.one_eq (n := 53 + 1021) rfl]
  unfold Number.units
  by_cases he : x.biasedExp = 0#11
  · rw [if_pos he, hone]
    have hone' : 2 ^ 53 * 1 ≤ 2 ^ 53 * 2 ^ 1021 := Nat.mul_le_mul_left _ (Nat.two_pow_pos _)
    omega
  · rw [if_neg he, hone]
    have hpow : 2 ^ (x.biasedExp.toNat - 1) ≤ 2 ^ 1021 := Nat.pow_le_pow_right (by decide) (by omega)
    calc (2 ^ 52 + x.fraction.toNat) * 2 ^ (x.biasedExp.toNat - 1)
        < 2 ^ 53 * 2 ^ (x.biasedExp.toNat - 1) := Nat.mul_lt_mul_of_pos_right (by omega) (Nat.two_pow_pos _)
      _ ≤ 2 ^ 53 * 2 ^ 1021 := Nat.mul_le_mul_left _ hpow

theorem units_of_exp (h : 1 ≤ x.biasedExp.toNat) :
    x.units = (2 ^ 52 + x.fraction.toNat) * 2 ^ (x.biasedExp.toNat - 1) := by
  have hne : x.biasedExp ≠ 0#11 := by
    intro h0
    rw [h0] at h
    cases h
  rw [Number.units, if_neg hne]

/-- The bits that a right shift drops are the bits that a left shift keeps. -/
theorem shifted_out_iff {f : BitVec 64} {e : Nat} (he : e ≤ 52) :
    f <<< (e + (64 - 52)) ≠ 0#64 ↔ f.toNat % 2 ^ (52 - e) ≠ 0 := by
  have hw : 2 ^ (52 - e) * 2 ^ (e + 12) = 2 ^ 64 := by
    rw [← pow_add]
    congr 1
    omega
  have hshift : (f <<< (e + (64 - 52))).toNat = f.toNat % 2 ^ (52 - e) * 2 ^ (e + 12) := by
    rw [BitVec.toNat_shiftLeft, Nat.shiftLeft_eq, ← hw, Nat.mul_mod_mul_right]
  rw [ne_eq, ← BitVec.toNat_inj, hshift, BitVec.toNat_zero, Nat.mul_eq_zero]
  have hpos := Nat.two_pow_pos (e + 12)
  simp only [Nat.ne_of_gt hpos, or_false, ne_eq]

theorem unpacks_small (hlow : 1023 ≤ x.biasedExp.toNat) (hhigh : x.biasedExp.toNat - 1023 ≤ 52) :
    ∃ ds zeros rest, Unpacks x (ecmaBigintNumberToDigits x) ds zeros rest := by
  have hsig := toNat_significand x.fraction
  have hf := x.fraction.isLt
  have hz : ¬ x.isZero = true := by
    rw [Number.isZero_iff]
    intro h
    rw [h.1] at hlow
    exact absurd hlow (by decide)
  unfold ecmaBigintNumberToDigits
  dsimp only
  rw [if_neg hz, if_neg (by omega), if_pos hhigh]
  generalize (x.fraction.setWidth 64 ||| (1#64 <<< 52) : BitVec 64) = f at hsig ⊢
  obtain ⟨e, he⟩ : ∃ e, x.biasedExp.toNat = 1023 + e := ⟨x.biasedExp.toNat - 1023, by omega⟩
  have hexp : x.biasedExp.toNat - 1023 = e := by omega
  rw [hexp] at hhigh ⊢
  have hval := val_two_digits (f >>> (52 - e))
  have hq : (f >>> (52 - e)).toNat = f.toNat / 2 ^ (52 - e) := by
    rw [BitVec.toNat_ushiftRight, Nat.shiftRight_eq_div_pow]
  have hqpos : 0 < f.toNat / 2 ^ (52 - e) := by
    refine Nat.div_pos ?_ (Nat.two_pow_pos _)
    exact Nat.le_trans (Nat.pow_le_pow_right (by decide) (Nat.sub_le 52 e)) (by omega)
  obtain ⟨es, hn, hlen, hv, htake⟩ := trimmed_count [((f >>> (52 - e)).setWidth 32 : Digit)]
    ((f >>> (52 - e) >>> 32).setWidth 32) (by
      show 1 ≤ val [_, _]
      rw [hval, hq]
      exact hqpos)
  have hv' : val es = f.toNat / 2 ^ (52 - e) := by rw [hv, ← hq, ← hval]; rfl
  have hes : es.length ≤ 2 := by
    rw [hlen]
    split
    · exact Nat.le_succ 1
    · exact Nat.le_refl 2
  have hone : Number.one = 2 ^ (52 - e) * 2 ^ (e + 1022) := by
    rw [← pow_add, Number.one_eq]
    omega
  -- The flag is set when bits are shifted out.
  have hflag : (if e < 52 ∧ f <<< (e + (64 - 52)) ≠ 0#64 then fractionFlag else 0#32) =
      if decide (f.toNat % 2 ^ (52 - e) * 2 ^ (e + 1022) ≠ 0) then fractionFlag else 0#32 := by
    have hiff : (e < 52 ∧ f <<< (e + (64 - 52)) ≠ 0#64) ↔ f.toNat % 2 ^ (52 - e) * 2 ^ (e + 1022) ≠ 0 := by
      rw [shifted_out_iff hhigh, ne_eq, ne_eq, Nat.mul_eq_zero]
      have hpos := Nat.two_pow_pos (e + 1022)
      constructor
      · intro h h'
        exact h.2 (h'.resolve_right (Nat.ne_of_gt hpos))
      · intro h
        refine ⟨?_, fun h' => h (Or.inl h')⟩
        by_contra hge
        have h52 : 52 - e = 0 := by omega
        exact h (Or.inl (by rw [h52, pow_zero, Nat.mod_one]))
    simp only [hiff, decide_eq_true_eq]
  have hcount : (if ((f >>> (52 - e) >>> 32).setWidth 32 : Digit) = 0#32 then 1#32 else 2#32) = BitVec.ofNat 32 es.length := by
    rw [hlen]
    split
    · rfl
    · rfl
  refine ⟨es, 0, f.toNat % 2 ^ (52 - e) * 2 ^ (e + 1022), ?_⟩
  rw [hflag, hcount]
  exact {
    packed := packed_fraction (by omega) _
    stored := htake
    trimmed := hn
    zeros_of_nil := fun _ => rfl
    small := ⟨by omega, by decide⟩
    rest_lt := by
      rw [hone]
      exact Nat.mul_lt_mul_of_pos_right (Nat.mod_lt _ (Nat.two_pow_pos _)) (Nat.two_pow_pos _)
    units := by
      have hexp' : x.biasedExp.toNat - 1 = e + 1022 := by omega
      rw [units_of_exp (by omega), ← hsig, hexp', hone, hv', pow_zero, Nat.one_mul]
      calc f.toNat * 2 ^ (e + 1022)
          = (2 ^ (52 - e) * (f.toNat / 2 ^ (52 - e)) + f.toNat % 2 ^ (52 - e)) * 2 ^ (e + 1022) := by rw [Nat.div_add_mod]
        _ = 2 ^ (52 - e) * 2 ^ (e + 1022) * (f.toNat / 2 ^ (52 - e)) + f.toNat % 2 ^ (52 - e) * 2 ^ (e + 1022) := by ring }

/-- Two digits shifted left into three. -/
theorem val_shifted {s : Nat} (hs : s < 32) (d0 d1 : Digit) :
    val ([d0 <<< s, (d1 <<< s) ||| (d0 >>> (32 - s))] ++ [d1 >>> (32 - s)]) = val [d0, d1] * 2 ^ s := by
  have hv := (shiftLeftDigits_val hs [d0, d1] (show (0#32 : Digit).toNat < 2 ^ s from Nat.two_pow_pos s)).2
  have hor : d0 <<< s ||| 0#32 = d0 <<< s := by simp
  simp only [shiftLeftDigits, hor, BitVec.toNat_zero, Nat.add_zero] at hv
  rw [val_concat]
  exact hv

theorem unpacks_large (hlow : 52 < x.biasedExp.toNat - 1023) (hfin : x.biasedExp.toNat < 2047) :
    ∃ ds zeros rest, Unpacks x (ecmaBigintNumberToDigits x) ds zeros rest := by
  have hsig := toNat_significand x.fraction
  have hf := x.fraction.isLt
  have hz : ¬ x.isZero = true := by
    rw [Number.isZero_iff]
    intro h
    rw [h.1] at hlow
    exact absurd hlow (by decide)
  unfold ecmaBigintNumberToDigits
  dsimp only
  rw [if_neg hz, if_neg (by omega), if_neg (by omega)]
  generalize (x.fraction.setWidth 64 ||| (1#64 <<< 52) : BitVec 64) = f at hsig ⊢
  obtain ⟨b, hb⟩ : ∃ b, x.biasedExp.toNat = 1075 + b := ⟨x.biasedExp.toNat - 1075, by omega⟩
  have hexp : x.biasedExp.toNat - 1023 - 52 = b := by omega
  have hand : b &&& 31 = b % 32 := Nat.and_two_pow_sub_one_eq_mod b 5
  have hdiv : b >>> 5 = b / 32 := Nat.shiftRight_eq_div_pow b 5
  rw [hexp, hand, hdiv]
  have hzeros : b / 32 < 32 := by omega
  have hval := val_two_digits f
  have hexp' : x.biasedExp.toNat - 1 = 1074 + b := by omega
  have hweight : (2 ^ 32) ^ (b / 32) * 2 ^ (b % 32) = 2 ^ b := by
    rw [← pow_mul, ← pow_add, Nat.div_add_mod]
  have hunits : x.units = Number.one * ((2 ^ 32) ^ (b / 32) * (f.toNat * 2 ^ (b % 32))) + 0 := by
    rw [units_of_exp (by omega), ← hsig, hexp', pow_add, Number.one_eq rfl, Nat.mul_comm f.toNat (2 ^ (b % 32)),
      ← Nat.mul_assoc _ (2 ^ (b % 32)), hweight]
    ring
  by_cases hs : b % 32 = 0
  · rw [if_pos hs]
    rw [hs, pow_zero, Nat.mul_one] at hunits
    refine ⟨[f.setWidth 32, (f >>> 32).setWidth 32], b / 32, 0, packed_zeros (by simp) hzeros, rfl, ?_, fun h => (nomatch h),
      ⟨by simp, hzeros⟩, Number.one_pos, by rw [hval]; exact hunits⟩
    apply trimmed_of_pow_le
    rw [hval, hsig]
    show (2 ^ 32) ^ 1 ≤ _
    omega
  · rw [if_neg hs]
    have hs32 : b % 32 < 32 := Nat.mod_lt b (by decide)
    have hshift := val_shifted hs32 (f.setWidth 32) ((f >>> 32).setWidth 32)
    rw [hval] at hshift
    obtain ⟨es, hn, hlen, hv, htake⟩ := trimmed_count _ _ (by
      rw [hshift, hsig]
      show (2 ^ 32) ^ 1 ≤ _
      have hpos := Nat.two_pow_pos (b % 32)
      calc (2 ^ 32) ^ 1 ≤ (2 ^ 52 + x.fraction.toNat) * 1 := by omega
        _ ≤ (2 ^ 52 + x.fraction.toNat) * 2 ^ (b % 32) := Nat.mul_le_mul_left _ hpos)
    have hcount : (if ((f >>> 32).setWidth 32 : Digit) >>> (32 - b % 32) = 0#32 then 2#32 else 3#32) =
        BitVec.ofNat 32 es.length := by
      rw [hlen]
      split
      · rfl
      · rfl
    have hes : es.length ≤ 3 ∧ es ≠ [] := by
      have hlen' : 2 ≤ es.length ∧ es.length ≤ 3 := by
        rw [hlen]
        split
        · exact ⟨Nat.le_refl 2, Nat.le_succ 2⟩
        · exact ⟨Nat.le_succ 2, Nat.le_refl 3⟩
      refine ⟨hlen'.2, ?_⟩
      intro hnil
      rw [hnil] at hlen'
      exact absurd hlen'.1 (by decide)
    rw [hcount]
    refine ⟨es, b / 32, 0, packed_zeros hes.1 hzeros, htake, hn, fun h => absurd h hes.2, ⟨hes.1, hzeros⟩,
      Number.one_pos, ?_⟩
    rw [hv, hshift]
    exact hunits

theorem number_unpacks (hfin : x.Finite) : ∃ ds zeros rest, Unpacks x (ecmaBigintNumberToDigits x) ds zeros rest := by
  have hlt := hfin.lt
  by_cases hz : x.isZero = true
  · refine ⟨[], 0, 0, ?_⟩
    unfold ecmaBigintNumberToDigits
    rw [if_pos hz]
    have hpacked : Packed (setDigits 0#32) 0 0 false := packed_fraction (Nat.zero_le 3) false
    refine ⟨hpacked, rfl, trimmed_nil, fun _ => rfl, by decide, Number.one_pos, ?_⟩
    rw [val_nil, Nat.mul_zero, Nat.mul_zero, Nat.add_zero]
    exact (Number.units_eq_zero x).mpr hz
  · by_cases hsmall : x.biasedExp.toNat < 1023
    · have hpos : x.units ≠ 0 := mt (Number.units_eq_zero x).mp hz
      refine ⟨[], 0, x.units, ?_⟩
      unfold ecmaBigintNumberToDigits
      dsimp only
      rw [if_neg hz, if_pos hsmall]
      have hpacked : Packed (setDigits 0#32 ||| fractionFlag) 0 0 true := packed_fraction (Nat.zero_le 3) true
      rw [← decide_eq_true hpos] at hpacked
      refine ⟨hpacked, rfl, trimmed_nil, fun _ => rfl, by decide, units_lt_one hsmall, ?_⟩
      rw [val_nil, Nat.mul_zero, Nat.mul_zero, Nat.zero_add]
    · by_cases hhigh : x.biasedExp.toNat - 1023 ≤ 52
      · exact unpacks_small (Nat.le_of_not_lt hsmall) hhigh
      · exact unpacks_large (Nat.lt_of_not_le hhigh) hlt

end

end BigInt
end JJS
