import JJS.BigInt.NumberDigits
import JJS.BigInt.Value

/-!
# JJS.BigInt.Compare

The comparisons of BigInt values with each other and with numbers, and the conversion of a number to a BigInt.
-/

namespace JJS
namespace BigInt

open Radix

/-! ## BigInt values -/

/-- `ecma_bigint_is_equal_to_bigint`. The sizes and the signs are compared in one word. -/
def ecmaBigintIsEqualToBigint (left right : Block) : Bool :=
  if left = Block.zero then decide (right = Block.zero)
  else if right = Block.zero then false
  else if (left.sign, left.digits.length) ≠ (right.sign, right.digits.length) then false
  else left.digits == right.digits

/-- `ECMA_BIGINT_TO_SIGN`. -/
def toSign (value : Bool) : Int := if value then -1 else 1

/-- `ECMA_BIGINT_TO_NEGATED_SIGN`. -/
def toNegatedSign (value : Bool) : Int := if value then 1 else -1

def orderingSign : Ordering → Int
  | .lt => -1
  | .eq => 0
  | .gt => 1

/-- `ecma_bigint_compare_to_bigint`. -/
def ecmaBigintCompareToBigint (left right : Block) : Int :=
  if left = Block.zero then
    if right = Block.zero then 0 else toNegatedSign right.sign
  else if right = Block.zero then toSign left.sign
  else if (left.sign ^^ right.sign) = true then toSign left.sign
  else if left.sign = false then orderingSign (ecmaBigUintCompare left.digits right.digits)
  else -orderingSign (ecmaBigUintCompare left.digits right.digits)

/-! ## Numbers -/

/-- The assertion on the digits of a number. -/
def assertNumberDigits (t : BitVec 32 × List Digit) : Res Unit :=
  jjsAssert (getDigits t.1 = 0 ∨ 0#32 < t.2.getD (getDigits t.1 - 1) 0#32)

/-- The part of `ecma_bigint_is_equal_to_number` behind the check of the signs. -/
def isEqualToDigits (left : List Digit) (t : BitVec 32 × List Digit) : Res Bool := do
  assertNumberDigits t
  if hasFraction t.1 then .ok false
  else
    let digitsSize := getDigitsSize t.1
    let zeroSize := getZeroSize t.1
    if 4 * left.length ≠ digitsSize + zeroSize then .ok false
    else if left.drop (zeroSize / 4) ≠ t.2.take (digitsSize / 4) then .ok false
    else .ok ((left.take (zeroSize / 4)).all (· == 0#32))

/-- `ecma_bigint_is_equal_to_number`. -/
def ecmaBigintIsEqualToNumber (left : Block) (right : Number) : Res Bool :=
  if right.isNan ∨ right.isInfinity then .ok false
  else if left = Block.zero then .ok right.isZero
  else if (if left.sign then right.isPositive else right.isNegative) = true then .ok false
  else isEqualToDigits left.digits (ecmaBigintNumberToDigits right)

/-- The second loop of `ecma_bigint_compare_to_number`. -/
def compareZeros (leftSign last : Int) : List Digit → Int
  | [] => last
  | left :: ls => if left ≠ 0#32 then leftSign else compareZeros leftSign last ls

/-- The first loop of `ecma_bigint_compare_to_number`, most significant digit first. -/
def compareNumberLoop (leftSign last : Int) : List Digit → List Digit → Res Int
  | ls, [] => .ok (compareZeros leftSign last ls)
  | [], _ :: _ => .error .assertion
  | left :: ls, right :: rs =>
    if left ≠ right then .ok (if right < left then leftSign else -leftSign)
    else compareNumberLoop leftSign last ls rs

/-- `ecma_bigint_compare_to_number`. -/
def ecmaBigintCompareToNumber (left : Block) (right : Number) : Res Int := do
  jjsAssert (right.isNan = false)
  let rightInvertSign := toSign right.isPositive
  if left = Block.zero then
    if right.isZero then .ok 0 else .ok rightInvertSign
  else
    let leftSign := toSign left.sign
    if right.isZero ∨ leftSign = rightInvertSign then .ok leftSign
    else if right.isInfinity then .ok rightInvertSign
    else do
      let t := ecmaBigintNumberToDigits right
      assertNumberDigits t
      let digitsSize := getDigitsSize t.1
      if digitsSize = 0 then do
        jjsAssert (hasFraction t.1 = true)
        .ok leftSign
      else
        let leftSize := 4 * left.digits.length
        let rightSize := digitsSize + getZeroSize t.1
        if leftSize ≠ rightSize then .ok (if rightSize < leftSize then leftSign else -leftSign)
        else
          compareNumberLoop leftSign (if hasFraction t.1 then -leftSign else 0) left.digits.reverse
            (t.2.take (digitsSize / 4)).reverse

/-- `ecma_bigint_number_to_bigint`. -/
def ecmaBigintNumberToBigint (number : Number) : Res Block :=
  if number.isNan ∨ number.isInfinity then .error .infinityOrNan
  else do
    let t := ecmaBigintNumberToDigits number
    assertNumberDigits t
    if hasFraction t.1 then .error .notInteger
    else
      let digitsSize := getDigitsSize t.1
      if digitsSize = 0 then .ok Block.zero
      else do
        let zeroSize := getZeroSize t.1
        ecmaBigintCreate (digitsSize + zeroSize)
        .ok ⟨number.isNegative, List.replicate (zeroSize / 4) 0#32 ++ t.2.take (digitsSize / 4)⟩

/-! ## BigInt values are compared as integers -/

theorem toBlock_eq_iff (a b : Value) : a.toBlock = b.toBlock ↔ a.toInt = b.toInt := by
  constructor
  · intro h
    rw [Value.toInt, h]
    rfl
  · exact Value.toBlock_eq

theorem isEqualToBigint_iff (a b : Value) : ecmaBigintIsEqualToBigint a.toBlock b.toBlock = true ↔ a.toInt = b.toInt := by
  rw [← toBlock_eq_iff]
  unfold ecmaBigintIsEqualToBigint
  by_cases ha : a.toBlock = Block.zero
  · rw [if_pos ha, decide_eq_true_iff, ha]
    exact eq_comm
  · rw [if_neg ha]
    by_cases hb : b.toBlock = Block.zero
    · rw [if_pos hb, hb]
      exact iff_of_false (by decide) ha
    · rw [if_neg hb]
      by_cases hword : (a.sign, a.digits.length) = (b.sign, b.digits.length)
      · rw [if_neg (not_not_intro hword), beq_iff_eq]
        constructor
        · intro hdigits
          cases hA : a.toBlock with
          | mk s ds =>
            cases hB : b.toBlock with
            | mk s' ds' =>
              rw [hA, hB] at hdigits hword
              cases hdigits
              cases hword
              rfl
        · intro h
          rw [h]
      · rw [if_pos hword]
        refine iff_of_false (by decide) fun h => hword ?_
        rw [h]

theorem orderingSign_compare (m n : Nat) : orderingSign (compare m n) = Int.sign ((m : Int) - n) := by
  rcases Nat.lt_trichotomy m n with h | h | h
  · rw [Nat.compare_eq_lt.mpr h, Int.sign_eq_neg_one_of_neg (by omega)]
    rfl
  · rw [Nat.compare_eq_eq.mpr h, h, Int.sub_self]
    rfl
  · rw [Nat.compare_eq_gt.mpr h, Int.sign_eq_one_of_pos (by omega)]
    rfl

theorem ne_zero_digits {a : Value} (h : a.toBlock ≠ Block.zero) : a.digits ≠ [] := fun hnil => h (Value.eq_zero_of_nil hnil)

/-- The sign of a BigInt that is not zero. -/
theorem toSign_eq {a : Value} (h : a.toBlock ≠ Block.zero) : toSign a.sign = Int.sign a.toInt := by
  have hpos := a.trimmed.val_pos (ne_zero_digits h)
  rw [Value.toInt, Block.toInt]
  cases a.sign with
  | true => rw [if_pos rfl, Int.sign_eq_neg_one_of_neg (by omega), toSign, if_pos rfl]
  | false => rw [if_neg (by decide), Int.sign_eq_one_of_pos (by omega), toSign, if_neg (by decide)]

theorem toInt_zero {a : Value} (h : a.toBlock = Block.zero) : a.toInt = 0 := by
  rw [Value.toInt, h]
  rfl

theorem compareToBigint_eq (a b : Value) :
    ecmaBigintCompareToBigint a.toBlock b.toBlock = Int.sign (a.toInt - b.toInt) := by
  unfold ecmaBigintCompareToBigint
  by_cases ha : a.toBlock = Block.zero
  · rw [if_pos ha, toInt_zero ha, Int.zero_sub, Int.sign_neg]
    by_cases hb : b.toBlock = Block.zero
    · rw [if_pos hb, toInt_zero hb]
      rfl
    · rw [if_neg hb, ← toSign_eq hb]
      cases b.sign with
      | true => rfl
      | false => rfl
  · rw [if_neg ha]
    by_cases hb : b.toBlock = Block.zero
    · rw [if_pos hb, toInt_zero hb, Int.sub_zero, toSign_eq ha]
    · rw [if_neg hb]
      have hA := a.trimmed.val_pos (ne_zero_digits ha)
      have hB := b.trimmed.val_pos (ne_zero_digits hb)
      rw [ecmaBigUintCompare_eq a.trimmed b.trimmed, orderingSign_compare, toSign_eq ha]
      have hav : a.toInt = if a.sign then -(val a.digits : Int) else val a.digits := rfl
      have hbv : b.toInt = if b.sign then -(val b.digits : Int) else val b.digits := rfl
      cases hsa : a.sign with
      | true =>
        rw [hsa, if_pos rfl] at hav
        cases hsb : b.sign with
        | true =>
          rw [hsb, if_pos rfl] at hbv
          have hneg : a.toInt - b.toInt = -((val a.digits : Int) - val b.digits) := by omega
          rw [if_neg (by decide), if_neg (by decide), hneg, Int.sign_neg]
        | false =>
          rw [hsb, if_neg (by decide)] at hbv
          rw [if_pos (by decide), Int.sign_eq_neg_one_of_neg (by omega), Int.sign_eq_neg_one_of_neg (by omega)]
      | false =>
        rw [hsa, if_neg (by decide)] at hav
        cases hsb : b.sign with
        | true =>
          rw [hsb, if_pos rfl] at hbv
          rw [if_pos (by decide), Int.sign_eq_one_of_pos (by omega), Int.sign_eq_one_of_pos (by omega)]
        | false =>
          rw [hsb, if_neg (by decide)] at hbv
          rw [if_neg (by decide), if_pos rfl, hav, hbv]

/-! ## The digits of a number -/

section

variable {x : Number} {ds : List Digit} {zeros rest : Nat} (h : Unpacks x (ecmaBigintNumberToDigits x) ds zeros rest)

include h

theorem assertNumberDigits_ok : assertNumberDigits (ecmaBigintNumberToDigits x) = .ok () := by
  refine jjsAssert_ok ?_
  rw [h.packed.digits]
  by_cases hnil : ds = []
  · rw [hnil]
    exact Or.inl rfl
  · right
    obtain ⟨es, d, heq, hd⟩ := h.trimmed.exists_concat hnil
    have hpos := List.length_pos_iff.mpr hnil
    have hget : ((ecmaBigintNumberToDigits x).2.take ds.length)[ds.length - 1]? =
        (ecmaBigintNumberToDigits x).2[ds.length - 1]? := List.getElem?_take_of_lt (by omega)
    have hlast : ds[ds.length - 1]? = some d := by
      rw [heq, List.length_append, List.length_singleton, Nat.add_sub_cancel]
      exact List.getElem?_concat_length
    rw [List.getD_eq_getElem?_getD, ← hget, h.stored, hlast, BitVec.lt_def]
    exact toNat_pos hd

/-- The digits, with the zeros below them. -/
theorem trimmed_number (hne : ds ≠ []) : Trimmed (List.replicate zeros 0#32 ++ ds) := h.trimmed.append_left _ hne

omit h in
theorem val_number (zeros : Nat) (ds : List Digit) : val (List.replicate zeros 0#32 ++ ds) = (2 ^ 32) ^ zeros * val ds := by
  rw [val_append, val_replicate_zero, Nat.zero_add, List.length_replicate]

/-- The integer part decides, and the rest when it is equal. -/
theorem sign_units (n : Nat) : Int.sign ((n : Int) * Number.one - x.units) =
    if (2 ^ 32) ^ zeros * val ds < n then 1 else if n < (2 ^ 32) ^ zeros * val ds then -1 else if rest ≠ 0 then -1 else 0 := by
  have hunits := h.units
  have hrest := h.rest_lt
  generalize (2 ^ 32) ^ zeros * val ds = m at hunits ⊢
  generalize x.units = u at hunits ⊢
  have hcast : (n : Int) * Number.one - u = ((n * Number.one : Nat) : Int) - (Number.one * m + rest : Nat) := by
    rw [hunits]
    push_cast
    ring
  rw [hcast]
  generalize Number.one = k at hrest ⊢
  by_cases hgt : m < n
  · have hle : (m + 1) * k ≤ n * k := Nat.mul_le_mul_right k hgt
    have hexp : (m + 1) * k = k * m + k := by ring
    rw [if_pos hgt, Int.sign_eq_one_of_pos (by omega)]
  · rw [if_neg hgt]
    by_cases hlt : n < m
    · have hle : (n + 1) * k ≤ m * k := Nat.mul_le_mul_right k hlt
      have hexp : (n + 1) * k = n * k + k := by ring
      have hcomm : m * k = k * m := Nat.mul_comm m k
      rw [if_pos hlt, Int.sign_eq_neg_one_of_neg (by omega)]
    · have heq : n = m := by omega
      have hcomm : m * k = k * m := Nat.mul_comm m k
      rw [if_neg hlt, heq, hcomm]
      by_cases h0 : rest = 0
      · rw [if_neg (not_not_intro h0), h0, Nat.add_zero, Int.sub_self]
        rfl
      · rw [if_pos h0, Int.sign_eq_neg_one_of_neg (by omega)]

end

/-! ## The loops -/

theorem compareNumberLoop_eq (leftSign last : Int) {ls rs : List Digit} (hlen : ls.length = rs.length) (low : List Digit) :
    compareNumberLoop leftSign last (ls ++ low) rs =
      .ok (match compareDigits ls rs with
        | .gt => leftSign
        | .lt => -leftSign
        | .eq => compareZeros leftSign last low) := by
  induction ls generalizing rs with
  | nil =>
    have hnil : rs = [] := List.length_eq_zero_iff.mp hlen.symm
    rw [hnil]
    cases low with
    | nil => rfl
    | cons l low => rfl
  | cons l ls ih =>
    cases rs with
    | nil => cases hlen
    | cons r rs =>
      rw [List.cons_append, compareNumberLoop, compareDigits]
      by_cases hlt : l < r
      · have hne : l ≠ r := by
          intro heq
          rw [heq, BitVec.lt_def] at hlt
          omega
        rw [if_pos hne, if_pos hlt, if_neg (by rw [BitVec.lt_def] at hlt ⊢; omega)]
      · rw [if_neg hlt]
        by_cases hgt : r < l
        · have hne : l ≠ r := by
            intro heq
            rw [heq, BitVec.lt_def] at hgt
            omega
          rw [if_pos hne, if_pos hgt, if_pos hgt]
        · have heq : l = r := by
            apply BitVec.eq_of_toNat_eq
            rw [BitVec.lt_def] at hlt hgt
            omega
          rw [if_neg (not_not_intro heq), if_neg hgt]
          exact ih (Nat.succ.inj hlen)

theorem compareZeros_eq (leftSign last : Int) (ls : List Digit) :
    compareZeros leftSign last ls = if 0 < val ls.reverse then leftSign else last := by
  induction ls with
  | nil => rfl
  | cons l ls ih =>
    rw [compareZeros, List.reverse_cons, val_concat]
    have hpos : 0 < (2 ^ 32) ^ ls.reverse.length := Nat.pow_pos (by decide)
    by_cases hl : l = 0#32
    · rw [if_neg (not_not_intro hl), ih, hl, BitVec.toNat_zero, Nat.mul_zero, Nat.add_zero]
    · have hmul := Nat.mul_pos hpos (toNat_pos hl)
      rw [if_pos hl, if_pos (by omega)]

section

variable {x : Number} {ds : List Digit} {zeros rest : Nat} (h : Unpacks x (ecmaBigintNumberToDigits x) ds zeros rest)

include h

/-- The sizes and then the digits compare the magnitudes. -/
theorem compare_digits_eq (leftSign : Int) {as : List Digit} (has : Trimmed as) (hds : ds ≠ []) :
    (if 4 * as.length ≠ 4 * ds.length + 4 * zeros then
        .ok (if 4 * ds.length + 4 * zeros < 4 * as.length then leftSign else -leftSign)
      else compareNumberLoop leftSign (if decide (rest ≠ 0) then -leftSign else 0) as.reverse ds.reverse : Res Int) =
      .ok (leftSign * Int.sign ((val as : Int) * Number.one - x.units)) := by
  have hnum := trimmed_number h hds
  have hvalue := val_number zeros ds
  have hlen : (List.replicate zeros 0#32 ++ ds).length = zeros + ds.length := by
    rw [List.length_append, List.length_replicate]
  rw [sign_units h (val as), ← hvalue]
  by_cases hsize : 4 * as.length ≠ 4 * ds.length + 4 * zeros
  · rw [if_pos hsize]
    by_cases hgt : 4 * ds.length + 4 * zeros < 4 * as.length
    · have hval : val (List.replicate zeros 0#32 ++ ds) < val as := has.val_lt_of_length_lt (by decide) (by omega)
      rw [if_pos hgt, if_pos hval, mul_one]
    · have hval : val as < val (List.replicate zeros 0#32 ++ ds) := hnum.val_lt_of_length_lt (by decide) (by omega)
      rw [if_neg hgt, if_neg (by omega), if_pos hval, mul_neg_one]
  · rw [if_neg hsize]
    -- The digits of the number are compared with the upper digits, and the lower digits with zero.
    obtain ⟨low, high, hsplit, hlow⟩ : ∃ low high, as = low ++ high ∧ low.length = zeros :=
      ⟨as.take zeros, as.drop zeros, (List.take_append_drop zeros as).symm, by rw [List.length_take]; omega⟩
    have hhigh : high.length = ds.length := by
      rw [hsplit, List.length_append] at hsize
      omega
    have hlowlt := val_lt low
    rw [hlow] at hlowlt
    rw [hvalue, hsplit, List.reverse_append, compareNumberLoop_eq _ _ (by rw [List.length_reverse, List.length_reverse, hhigh]),
      compareDigits_eq _ _ (by rw [List.length_reverse, List.length_reverse, hhigh]), List.reverse_reverse,
      List.reverse_reverse, compareZeros_eq, List.reverse_reverse, val_append, hlow]
    generalize (2 ^ 32) ^ zeros = w at hlowlt ⊢
    rcases Nat.lt_trichotomy (val high) (val ds) with hlt | heq | hgt
    · have hle : w * (val high + 1) ≤ w * val ds := Nat.mul_le_mul_left w hlt
      rw [Nat.mul_add, Nat.mul_one] at hle
      rw [Nat.compare_eq_lt.mpr hlt]
      dsimp only
      rw [if_neg (by omega), if_pos (by omega), mul_neg_one]
    · rw [Nat.compare_eq_eq.mpr heq, heq]
      by_cases hpos : 0 < val low
      · dsimp only
        rw [if_pos hpos, if_pos (by omega), mul_one]
      · dsimp only
        rw [if_neg hpos, if_neg (show ¬ w * val ds < val low + w * val ds by omega),
          if_neg (show ¬ val low + w * val ds < w * val ds by omega)]
        by_cases hrest : rest = 0
        · rw [hrest]
          simp
        · rw [if_pos hrest, decide_eq_true hrest, if_pos rfl, mul_neg_one]
    · have hle : w * (val ds + 1) ≤ w * val high := Nat.mul_le_mul_left w hgt
      rw [Nat.mul_add, Nat.mul_one] at hle
      rw [Nat.compare_eq_gt.mpr hgt]
      dsimp only
      rw [if_pos (by omega), mul_one]

end

/-! ## BigInt values and numbers -/

theorem signedUnits_eq (x : Number) : x.signedUnits = (if x.sign then -1 else 1) * x.units := by
  rw [Number.signedUnits]
  cases x.sign with
  | true => rw [if_pos rfl, if_pos rfl, neg_one_mul]
  | false => rw [if_neg (by decide), if_neg (by decide), one_mul]

/-- Of two values with one sign the magnitudes are compared. -/
theorem sign_same {a : Value} {x : Number} (hsign : a.sign = x.sign) :
    Int.sign (a.toInt * Number.one - x.signedUnits) = toSign a.sign * Int.sign ((val a.digits : Int) * Number.one - x.units) := by
  rw [signedUnits_eq, ← hsign, Value.toInt, Block.toInt, toSign]
  cases a.sign with
  | true =>
    simp only [if_true]
    rw [neg_one_mul, neg_one_mul, ← Int.sign_neg]
    congr 1
    ring
  | false =>
    simp only [Bool.false_eq_true, if_false]
    rw [one_mul, one_mul]

/-- Of two values with different signs the sign of the first one decides. -/
theorem sign_differ {a : Value} {x : Number} (ha : a.toBlock ≠ Block.zero) (hx : x.isZero = false) (hsign : a.sign ≠ x.sign) :
    Int.sign (a.toInt * Number.one - x.signedUnits) = toSign a.sign := by
  have hA : 0 < val a.digits * Number.one := Nat.mul_pos (a.trimmed.val_pos (ne_zero_digits ha)) Number.one_pos
  have hU : x.units ≠ 0 := by
    rw [ne_eq, Number.units_eq_zero, hx]
    decide
  rw [signedUnits_eq, Value.toInt, Block.toInt, toSign]
  generalize val a.digits = n at hA ⊢
  generalize Number.one = k at hA ⊢
  have hcast : ((n * k : Nat) : Int) = n * k := by push_cast; rfl
  cases hs : a.sign with
  | true =>
    have hxs : x.sign = false := by simpa [hs] using hsign
    rw [hxs, if_pos rfl, if_neg (by decide), if_pos rfl, one_mul, neg_mul]
    exact Int.sign_eq_neg_one_of_neg (by omega)
  | false =>
    have hxs : x.sign = true := by simpa [hs] using hsign
    rw [hxs, if_neg (by decide), if_pos rfl, if_neg (by decide), neg_one_mul]
    exact Int.sign_eq_one_of_pos (by omega)

theorem toSign_inj {s s' : Bool} : toSign s = toSign s' ↔ s = s' := by
  cases s with
  | true => cases s' with
    | true => exact iff_of_true rfl rfl
    | false => exact iff_of_false (by decide) (by decide)
  | false => cases s' with
    | true => exact iff_of_false (by decide) (by decide)
    | false => exact iff_of_true rfl rfl

theorem isPositive_of_nonzero {x : Number} (hnan : x.isNan = false) (hzero : x.isZero = false) : x.isPositive = !x.sign := by
  rw [Number.isPositive, hnan, hzero]
  rfl

theorem isNegative_of_nonzero {x : Number} (hnan : x.isNan = false) (hzero : x.isZero = false) : x.isNegative = x.sign := by
  rw [Number.isNegative, hnan, hzero]
  rfl

theorem not_isZero_of_infinity {x : Number} (h : x.isInfinity = true) : x.isZero = false := by
  rw [← Bool.not_eq_true, Number.isZero_iff]
  intro h0
  simp [Number.isInfinity, h0.1] at h

theorem toSign_not (s : Bool) : toSign (!s) = if s then 1 else -1 := by
  cases s with
  | true => rfl
  | false => rfl

theorem compareToNumber_infinity (a : Value) {x : Number} (hnan : x.isNan = false) (hinf : x.isInfinity = true) :
    ecmaBigintCompareToNumber a.toBlock x = .ok (if x.sign then 1 else -1) := by
  have hzero := not_isZero_of_infinity hinf
  unfold ecmaBigintCompareToNumber
  rw [jjsAssert_ok hnan, ok_bind, isPositive_of_nonzero hnan hzero, hzero, ← toSign_not]
  dsimp only
  by_cases ha : a.toBlock = Block.zero
  · rw [if_pos ha, if_neg (by decide)]
  · rw [if_neg ha]
    by_cases hsign : toSign a.sign = toSign (!x.sign)
    · rw [if_pos (Or.inr hsign), hsign]
    · rw [if_neg (by simp [hsign]), if_pos hinf]

theorem compareToNumber_finite (a : Value) {x : Number} (hfin : x.Finite) :
    ecmaBigintCompareToNumber a.toBlock x = .ok (Int.sign (a.toInt * Number.one - x.signedUnits)) := by
  obtain ⟨hnan, hinf⟩ := (Number.finite_iff x).mp hfin
  have hone : (0 : Int) < Number.one := Int.natCast_pos.mpr Number.one_pos
  unfold ecmaBigintCompareToNumber
  rw [jjsAssert_ok hnan, ok_bind]
  dsimp only
  cases hzero : x.isZero with
  | true =>
    rw [(Number.signedUnits_eq_zero x).mpr hzero, Int.sub_zero, Int.sign_mul, Int.sign_eq_one_of_pos hone, mul_one]
    by_cases ha : a.toBlock = Block.zero
    · rw [if_pos ha, if_pos rfl, toInt_zero ha]
      rfl
    · rw [if_neg ha, if_pos (Or.inl rfl), toSign_eq ha]
  | false =>
    rw [isPositive_of_nonzero hnan hzero]
    by_cases ha : a.toBlock = Block.zero
    · have hsigned := mt (Number.signedUnits_eq_zero x).mp (by rw [hzero]; decide)
      rw [if_pos ha, if_neg (by decide), toInt_zero ha, Int.zero_mul, Int.zero_sub, Int.sign_neg, toSign_not]
      rw [Number.signedUnits] at hsigned ⊢
      cases x.sign with
      | true =>
        simp only [if_true] at hsigned ⊢
        rw [Int.sign_eq_neg_one_of_neg (by omega)]
        rfl
      | false =>
        simp only [Bool.false_eq_true, if_false] at hsigned ⊢
        rw [Int.sign_eq_one_of_pos (by omega)]
    · rw [if_neg ha]
      by_cases hsign : a.sign = x.sign
      · have hne : ¬ ((false = true) ∨ toSign a.sign = toSign (!x.sign)) := by
          rw [toSign_inj, hsign]
          simp
        obtain ⟨ds, zeros, rest, h⟩ := number_unpacks hfin
        rw [if_neg hne, hinf, if_neg (by decide), assertNumberDigits_ok h, ok_bind, h.packed.digitsSize,
          h.packed.zeroSize, h.packed.fraction, Nat.mul_div_cancel_left _ (by decide), h.stored, sign_same hsign]
        by_cases hds : ds = []
        · -- Only a fraction, which is less than any BigInt that is not zero.
          have hrest : rest ≠ 0 := by
            intro h0
            have hunits := h.units
            rw [hds, h0, val_nil, Nat.mul_zero, Nat.mul_zero, Nat.add_zero, Number.units_eq_zero, hzero] at hunits
            cases hunits
          have hval := a.trimmed.val_pos (ne_zero_digits ha)
          rw [if_pos (by rw [hds]; rfl), jjsAssert_ok (decide_eq_true hrest), ok_bind, sign_units h, hds, val_nil, Nat.mul_zero,
            if_pos hval, mul_one]
        · have hlen := List.length_pos_iff.mpr hds
          rw [if_neg (by omega)]
          exact compare_digits_eq h (toSign a.sign) a.trimmed hds
      · have heq : toSign a.sign = toSign (!x.sign) := by
          rw [toSign_inj]
          cases hs : a.sign with
          | true => cases hx : x.sign with
            | true => exact absurd (hs.trans hx.symm) hsign
            | false => rfl
          | false => cases hx : x.sign with
            | true => rfl
            | false => exact absurd (hs.trans hx.symm) hsign
        rw [if_pos (Or.inr heq), sign_differ ha hzero hsign]

theorem compareToNumber_eq (a : Value) {x : Number} (hnan : x.isNan = false) :
    ecmaBigintCompareToNumber a.toBlock x = .ok (Number.signOfDifference a.toInt x) := by
  unfold Number.signOfDifference
  cases hinf : x.isInfinity with
  | true => rw [compareToNumber_infinity a hnan hinf, if_pos rfl]
  | false => rw [compareToNumber_finite a ((Number.finite_iff x).mpr ⟨hnan, hinf⟩), Number.sign_sub_toRat, if_neg (by decide)]

/-! ## Equality with a number -/

section

variable {x : Number} {ds : List Digit} {zeros rest : Nat} (h : Unpacks x (ecmaBigintNumberToDigits x) ds zeros rest)

include h

theorem trimmed_number' : Trimmed (List.replicate zeros 0#32 ++ ds) := by
  by_cases hds : ds = []
  · rw [h.zeros_of_nil hds, hds]
    exact trimmed_nil
  · exact trimmed_number h hds

/-- The magnitudes are equal when there is no fraction and the digits are the same. -/
theorem units_eq_iff {as : List Digit} (has : Trimmed as) :
    val as * Number.one = x.units ↔ rest = 0 ∧ as = List.replicate zeros 0#32 ++ ds := by
  have hpos := Number.one_pos
  have hrest := h.rest_lt
  rw [h.units, ← val_number, Nat.mul_comm (val as)]
  generalize hm : List.replicate zeros 0#32 ++ ds = bs
  have hbs : Trimmed bs := by
    rw [← hm]
    exact trimmed_number' h
  constructor
  · intro heq
    have hzero : rest = 0 := by
      have hmod := congrArg (· % Number.one) heq
      rw [Nat.mul_mod_right, Nat.mul_add_mod, Nat.mod_eq_of_lt hrest] at hmod
      exact hmod.symm
    rw [hzero, Nat.add_zero] at heq
    exact ⟨hzero, has.ext (by decide) hbs (Nat.eq_of_mul_eq_mul_left hpos heq)⟩
  · intro ⟨hzero, heq⟩
    rw [hzero, heq, Nat.add_zero]

omit h in
/-- The digits, the lower ones being zero. -/
theorem eq_zeros_append (zeros : Nat) (as ds : List Digit) : as = List.replicate zeros 0#32 ++ ds ↔
    as.length = ds.length + zeros ∧ as.drop zeros = ds ∧ (as.take zeros).all (· == 0#32) = true := by
  constructor
  · intro heq
    rw [heq]
    refine ⟨by rw [List.length_append, List.length_replicate, Nat.add_comm], ?_, ?_⟩
    · exact List.drop_left' List.length_replicate
    · rw [List.take_left' List.length_replicate]
      simp
  · intro ⟨hlen, hdrop, htake⟩
    have hzeros : as.take zeros = List.replicate zeros 0#32 := by
      refine List.eq_replicate_iff.mpr ⟨by rw [List.length_take]; omega, ?_⟩
      intro d hd
      exact beq_iff_eq.mp (List.all_eq_true.mp htake d hd)
    rw [← List.take_append_drop zeros as, hdrop, hzeros]

theorem isEqualToDigits_ok {as : List Digit} (has : Trimmed as) :
    ∃ r, isEqualToDigits as (ecmaBigintNumberToDigits x) = .ok r ∧ (r = true ↔ val as * Number.one = x.units) := by
  rw [units_eq_iff h has, eq_zeros_append]
  unfold isEqualToDigits
  rw [assertNumberDigits_ok h, ok_bind, h.packed.fraction, h.packed.digitsSize, h.packed.zeroSize]
  dsimp only
  rw [Nat.mul_div_cancel_left _ (by decide), Nat.mul_div_cancel_left _ (by decide), h.stored]
  by_cases h0 : rest = 0
  · rw [if_neg (by simp [h0])]
    by_cases hlen : 4 * as.length = 4 * ds.length + 4 * zeros
    · rw [if_neg (not_not_intro hlen)]
      by_cases hdrop : as.drop zeros = ds
      · rw [if_neg (not_not_intro hdrop)]
        exact ⟨_, rfl, fun hall => ⟨h0, by omega, hdrop, hall⟩, fun hall => hall.2.2.2⟩
      · rw [if_pos hdrop]
        exact ⟨false, rfl, iff_of_false (by decide) fun heq => hdrop heq.2.2.1⟩
    · rw [if_pos hlen]
      exact ⟨false, rfl, iff_of_false (by decide) fun heq => hlen (by have hl := heq.2.1; omega)⟩
  · rw [if_pos (decide_eq_true h0)]
    exact ⟨false, rfl, iff_of_false (by decide) fun heq => h0 heq.1⟩

end

/-- With equal signs the magnitudes decide. -/
theorem eq_same {a : Value} {x : Number} (hsign : a.sign = x.sign) :
    a.toInt * Number.one = x.signedUnits ↔ val a.digits * Number.one = x.units := by
  have hcast : ((val a.digits * Number.one : Nat) : Int) = val a.digits * Number.one := by push_cast; rfl
  rw [Value.toInt, Block.toInt, Number.signedUnits, hsign, ← Int.natCast_inj, hcast]
  cases x.sign with
  | true =>
    simp only [if_true]
    rw [neg_mul, neg_inj]
  | false => simp only [Bool.false_eq_true, if_false]

theorem toSign_ne_zero (s : Bool) : toSign s ≠ 0 := by
  cases s with
  | true => decide
  | false => decide

theorem isEqualToNumber_ok (a : Value) (x : Number) : ∃ r, ecmaBigintIsEqualToNumber a.toBlock x = .ok r ∧
    (r = true ↔ x.Finite ∧ (a.toInt : ℚ) = x.toRat) := by
  rw [Number.eq_toRat_iff]
  unfold ecmaBigintIsEqualToNumber
  by_cases hfin : x.Finite
  · obtain ⟨hnan, hinf⟩ := (Number.finite_iff x).mp hfin
    rw [hnan, hinf, if_neg (by decide)]
    by_cases ha : a.toBlock = Block.zero
    · rw [if_pos ha, toInt_zero ha, Int.zero_mul]
      refine ⟨x.isZero, rfl, ?_⟩
      rw [← Number.signedUnits_eq_zero]
      exact ⟨fun h => ⟨hfin, h.symm⟩, fun h => h.2.symm⟩
    · rw [if_neg ha]
      have hval := a.trimmed.val_pos (ne_zero_digits ha)
      obtain ⟨ds, zeros, rest, h⟩ := number_unpacks hfin
      obtain ⟨r, hr, hiff⟩ := isEqualToDigits_ok h a.trimmed
      cases hzero : x.isZero with
      | true =>
        have hsigned := (Number.signedUnits_eq_zero x).mpr hzero
        have hunits := (Number.units_eq_zero x).mpr hzero
        have hpos : ¬ (if a.sign then x.isPositive else x.isNegative) = true := by
          rw [Number.isPositive, Number.isNegative, hzero]
          cases a.sign with
          | true => simp
          | false => simp
        rw [if_neg hpos]
        refine ⟨r, hr, ?_⟩
        rw [hiff, hunits, hsigned]
        have hone := Number.one_pos
        refine iff_of_false (Nat.ne_of_gt (Nat.mul_pos hval hone)) fun heq => ?_
        cases Int.mul_eq_zero.mp heq.2 with
        | inl hz =>
          have habs := a.natAbs_toInt
          rw [hz] at habs
          omega
        | inr hz => omega
      | false =>
        have hcheck : (if a.sign then x.isPositive else x.isNegative) = true ↔ a.sign ≠ x.sign := by
          rw [isPositive_of_nonzero hnan hzero, isNegative_of_nonzero hnan hzero]
          cases a.sign with
          | true => simp
          | false => simp
        by_cases hsign : a.sign = x.sign
        · rw [if_neg (mt hcheck.mp (not_not_intro hsign))]
          refine ⟨r, hr, ?_⟩
          rw [hiff, eq_same hsign]
          exact ⟨fun heq => ⟨hfin, heq⟩, fun heq => heq.2⟩
        · rw [if_pos (hcheck.mpr hsign)]
          refine ⟨false, rfl, iff_of_false (by decide) fun heq => ?_⟩
          have hdiffer := sign_differ ha hzero hsign
          rw [heq.2, Int.sub_self] at hdiffer
          exact toSign_ne_zero a.sign hdiffer.symm
  · have hnot : x.isNan = true ∨ x.isInfinity = true := by
      by_contra hneither
      rw [not_or, Bool.not_eq_true, Bool.not_eq_true] at hneither
      exact hfin ((Number.finite_iff x).mpr hneither)
    rw [if_pos hnot]
    exact ⟨false, rfl, iff_of_false (by decide) fun heq => hfin heq.1⟩

/-! ## A number as a BigInt -/

/-- A fraction is no integer. -/
theorem rest_eq_zero {x : Number} {ds : List Digit} {zeros rest : Nat} {z : Int}
    (h : Unpacks x (ecmaBigintNumberToDigits x) ds zeros rest) (hz : z * Number.one = x.signedUnits) : rest = 0 := by
  have hrest := h.rest_lt
  have hunits : z.natAbs * Number.one = x.units := by
    have habs := congrArg Int.natAbs hz
    rw [Int.natAbs_mul, Int.natAbs_natCast] at habs
    rw [habs, Number.signedUnits]
    split
    · rw [Int.natAbs_neg, Int.natAbs_natCast]
    · rw [Int.natAbs_natCast]
  rw [h.units] at hunits
  have hmod := congrArg (· % Number.one) hunits
  rw [Nat.mul_mod_left, Nat.mul_add_mod, Nat.mod_eq_of_lt hrest] at hmod
  exact hmod.symm

theorem numberToBigint_cases {x : Number} (hfin : x.Finite) :
    (∃ v : Value, ecmaBigintNumberToBigint x = .ok v.toBlock ∧ v.toInt * Number.one = x.signedUnits) ∨
      ecmaBigintNumberToBigint x = .error .notInteger ∧ ¬ ∃ z : Int, z * Number.one = x.signedUnits := by
  obtain ⟨hnan, hinf⟩ := (Number.finite_iff x).mp hfin
  obtain ⟨ds, zeros, rest, h⟩ := number_unpacks hfin
  unfold ecmaBigintNumberToBigint
  rw [hnan, hinf, if_neg (by decide)]
  dsimp only
  rw [assertNumberDigits_ok h, ok_bind, h.packed.fraction, h.packed.digitsSize, h.packed.zeroSize,
    Nat.mul_div_cancel_left _ (by decide), Nat.mul_div_cancel_left _ (by decide), h.stored]
  by_cases h0 : rest = 0
  · left
    rw [if_neg (by simp [h0])]
    have hunits := h.units
    rw [h0, Nat.add_zero, Nat.mul_comm] at hunits
    by_cases hds : ds = []
    · rw [hds, val_nil, Nat.mul_zero, Nat.zero_mul, Number.units_eq_zero] at hunits
      rw [if_pos (by rw [hds]; rfl)]
      refine ⟨⟨Block.zero, trimmed_nil, fun _ => rfl, Nat.zero_le _⟩, rfl, ?_⟩
      rw [(Number.signedUnits_eq_zero x).mpr hunits]
      exact Int.zero_mul _
    · have hlen := List.length_pos_iff.mpr hds
      have hnum : (List.replicate zeros 0#32 ++ ds).length = zeros + ds.length := by
        rw [List.length_append, List.length_replicate]
      have hfits : 4 * (ds.length + zeros) ≤ maxSize := by
        have hsmall := h.small
        show 4 * (ds.length + zeros) ≤ 65536
        omega
      rw [if_neg (by omega), ← Nat.mul_add, ecmaBigintCreate_ok (by omega) hfits, ok_bind]
      refine ⟨Value.ofDigits x.isNegative (List.replicate zeros 0#32 ++ ds) ⟨by simp [hds], trimmed_number h hds, by omega⟩,
        rfl, ?_⟩
      have hzero : x.isZero = false := by
        rw [← Bool.not_eq_true, ← Number.units_eq_zero, hunits]
        exact Nat.ne_of_gt (Nat.mul_pos (Nat.mul_pos (Nat.pow_pos (by decide)) (h.trimmed.val_pos hds)) Number.one_pos)
      rw [eq_same (isNegative_of_nonzero hnan hzero), hunits, ← val_number]
      rfl
  · right
    rw [if_pos (decide_eq_true h0)]
    refine ⟨rfl, ?_⟩
    intro ⟨z, hz⟩
    exact h0 (rest_eq_zero h hz)

theorem numberToBigint_iff (x : Number) :
    (∃ b, ecmaBigintNumberToBigint x = .ok b) ↔ x.Finite ∧ ∃ z : Int, x.toRat = z := by
  by_cases hfin : x.Finite
  · have hint : (∃ z : Int, x.toRat = z) ↔ ∃ z : Int, z * Number.one = x.signedUnits :=
      exists_congr fun z => eq_comm.trans (Number.eq_toRat_iff z x)
    rw [hint]
    cases numberToBigint_cases hfin with
    | inl h =>
      obtain ⟨v, hv, hz⟩ := h
      exact iff_of_true ⟨_, hv⟩ ⟨hfin, _, hz⟩
    | inr h =>
      refine iff_of_false (fun hok => ?_) fun hz => h.2 hz.2
      obtain ⟨b, hb⟩ := hok
      rw [h.1] at hb
      cases hb
  · have hnot : x.isNan = true ∨ x.isInfinity = true := by
      by_contra hneither
      rw [not_or, Bool.not_eq_true, Bool.not_eq_true] at hneither
      exact hfin ((Number.finite_iff x).mpr hneither)
    refine iff_of_false (fun hok => ?_) fun h => hfin h.1
    obtain ⟨b, hb⟩ := hok
    rw [ecmaBigintNumberToBigint, if_pos hnot] at hb
    cases hb

/-- The BigInt that a number is converted to compares equal to it. -/
theorem numberToBigint_value {x : Number} {b : Block} (h : ecmaBigintNumberToBigint x = .ok b) :
    ∃ v : Value, b = v.toBlock ∧ (v.toInt : ℚ) = x.toRat ∧ ecmaBigintCompareToNumber b x = .ok 0 := by
  have hfin := ((numberToBigint_iff x).mp ⟨b, h⟩).1
  cases numberToBigint_cases hfin with
  | inl hok =>
    obtain ⟨v, hv, hz⟩ := hok
    rw [h] at hv
    cases hv
    refine ⟨v, rfl, (Number.eq_toRat_iff _ x).mpr hz, ?_⟩
    rw [compareToNumber_finite v hfin, hz, Int.sub_self]
    rfl
  | inr herror =>
    rw [herror.1] at h
    cases h

/-- BigInt values are ordered as integers among each other, and as rationals with the numbers. -/
theorem bigint_compare_exact (a b : Value) (x : Number) (hnan : x.isNan = false) :
    ecmaBigintCompareToBigint a.toBlock b.toBlock = Int.sign (a.toInt - b.toInt) ∧
    (ecmaBigintIsEqualToBigint a.toBlock b.toBlock = true ↔ a.toInt = b.toInt) ∧
    ecmaBigintCompareToNumber a.toBlock x = .ok (Number.signOfDifference a.toInt x) ∧
    (∃ r, ecmaBigintIsEqualToNumber a.toBlock x = .ok r ∧ (r = true ↔ x.Finite ∧ (a.toInt : ℚ) = x.toRat)) ∧
    ((∃ r, ecmaBigintNumberToBigint x = .ok r) ↔ x.Finite ∧ ∃ z : Int, x.toRat = z) ∧
    ∀ r, ecmaBigintNumberToBigint x = .ok r →
      ∃ v : Value, r = v.toBlock ∧ (v.toInt : ℚ) = x.toRat ∧ ecmaBigintCompareToNumber r x = .ok 0 :=
  ⟨compareToBigint_eq a b, isEqualToBigint_iff a b, compareToNumber_eq a hnan, isEqualToNumber_ok a x, numberToBigint_iff x,
    fun _ h => numberToBigint_value h⟩

/-- Two and a half is greater than two. -/
theorem bigint_compare_exact_at : ecmaBigintCompareToNumber ⟨false, [2#32]⟩ ⟨false, 1024#11, 0x4000000000000#52⟩ =
    .ok (Number.signOfDifference 2 ⟨false, 1024#11, 0x4000000000000#52⟩) :=
  (bigint_compare_exact (Value.ofDigits false [2#32] ⟨by decide, by decide, by decide⟩) ⟨Block.zero, trimmed_nil, fun _ => rfl, Nat.zero_le _⟩
    ⟨false, 1024#11, 0x4000000000000#52⟩ (by decide)).2.2.1

end BigInt
end JJS
