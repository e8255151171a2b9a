import JJS.BigInt.DivDigit

/-!
# JJS.BigInt.Kernel

The two loops of `ecma_big_uint_to_string` that divide the digits by the radix. The first one divides two digits by
one. The second one is for targets without such a division: it splits two digits into parts of 22, 20 and 22 bits, so
that each part fits into a digit together with the remainder of the part above it.
-/

namespace JJS
namespace BigInt

open Radix

/-- The loop with a two-digit division. -/
def dividePassWide (radix : Digit) (digits : List Digit) : List Digit × Digit :=
  let t := divDigitLoop radix digits.reverse 0#32
  (t.1.reverse, t.2)

def extractBitsLow : Nat := 10

def extractBitsHigh : Nat := 32 - extractBitsLow

def extractBitsLowMask : Digit := 1#32 <<< extractBitsLow - 1#32

def extractBitsHighMask : Digit := 1#32 <<< extractBitsHigh - 1#32

/-- The values that a step computes on the way. -/
structure PairStep where
  high : Digit
  mid : Digit
  low : Digit

/-- The three parts of two digits, each with the remainder of the part above it. -/
def pairStep (radix high low remainder : Digit) : PairStep :=
  let resultMid := (high &&& extractBitsLowMask) <<< extractBitsLow
  let resultHigh := (high >>> extractBitsLow) ||| (remainder <<< extractBitsHigh)
  let resultMid := resultMid ||| ((resultHigh % radix) <<< (extractBitsLow * 2))
  let resultMid := resultMid ||| (low >>> extractBitsHigh)
  let resultLow := (low &&& extractBitsHighMask) ||| ((resultMid % radix) <<< extractBitsHigh)
  ⟨resultHigh, resultMid, resultLow⟩

/-- One step of the second loop: the two quotient digits, the high one first, and the remainder. -/
def dividePair (radix high low remainder : Digit) : Digit × Digit × Digit :=
  let s := pairStep radix high low remainder
  let resultHigh := (s.high / radix) <<< extractBitsLow
  let resultMid := s.mid / radix
  (resultHigh ||| (resultMid >>> extractBitsLow), (s.low / radix) ||| (resultMid <<< extractBitsHigh), s.low % radix)

def dividePairs (radix : Digit) : List Digit → Digit → List Digit × Digit
  | high :: low :: ds, remainder =>
    let p := dividePair radix high low remainder
    let t := dividePairs radix ds p.2.2
    (p.1 :: p.2.1 :: t.1, t.2)
  | _, remainder => ([], remainder)

/-- The loop with single digits. An odd leading digit is divided alone. -/
def dividePassNarrow (radix : Digit) (digits : List Digit) : List Digit × Digit :=
  match digits.length % 2, digits.reverse with
  | 1, d :: ds =>
    let t := dividePairs radix ds (d % radix)
    ((d / radix :: t.1).reverse, t.2)
  | _, ds =>
    let t := dividePairs radix ds 0#32
    (t.1.reverse, t.2)

/-! ## One step -/

/-- A shift that loses no bits. -/
def ShiftFits (d : Digit) (shift : Nat) : Prop := d.toNat * 2 ^ shift < 2 ^ 32

/-- No shift of a step loses bits, but the last one: it loses the bits of the middle quotient that were put into the
high digit. -/
structure StepFits (radix high low remainder : Digit) : Prop where
  mid_high : ShiftFits (high &&& extractBitsLowMask) extractBitsLow
  high_remainder : ShiftFits remainder extractBitsHigh
  mid_remainder : ShiftFits ((pairStep radix high low remainder).high % radix) (extractBitsLow * 2)
  high_quotient : ShiftFits ((pairStep radix high low remainder).high / radix) extractBitsLow
  low_remainder : ShiftFits ((pairStep radix high low remainder).mid % radix) extractBitsHigh
  mid_quotient : (((pairStep radix high low remainder).mid / radix) <<< extractBitsHigh).toNat +
    2 ^ 32 * (((pairStep radix high low remainder).mid / radix) >>> extractBitsLow).toNat =
      ((pairStep radix high low remainder).mid / radix).toNat * 2 ^ extractBitsHigh

theorem toNat_shiftLeft_of_fits {d : Digit} {shift : Nat} (h : ShiftFits d shift) : (d <<< shift).toNat = d.toNat * 2 ^ shift := by
  rw [BitVec.toNat_shiftLeft, Nat.shiftLeft_eq, Nat.mod_eq_of_lt h]

theorem toNat_and_low (d : Digit) : (d &&& extractBitsLowMask).toNat = d.toNat % 2 ^ 10 := by
  rw [BitVec.toNat_and]
  exact Nat.and_two_pow_sub_one_eq_mod _ 10

theorem toNat_and_high (d : Digit) : (d &&& extractBitsHighMask).toNat = d.toNat % 2 ^ 22 := by
  rw [BitVec.toNat_and]
  exact Nat.and_two_pow_sub_one_eq_mod _ 22

theorem toNat_shiftRight (d : Digit) (shift : Nat) : (d >>> shift).toNat = d.toNat / 2 ^ shift := by
  rw [BitVec.toNat_ushiftRight, Nat.shiftRight_eq_div_pow]

/-- A value put above another one. -/
theorem toNat_or_shifted {x y : Digit} {shift : Nat} (hx : x.toNat < 2 ^ shift) (hy : ShiftFits y shift) :
    (x ||| (y <<< shift)).toNat = x.toNat + y.toNat * 2 ^ shift := by
  rw [BitVec.toNat_or, toNat_shiftLeft_of_fits hy, Nat.or_comm, ← Nat.shiftLeft_eq, ← Nat.shiftLeft_add_eq_or_of_lt hx,
    Nat.add_comm]

section

variable {radix : Digit} (high low remainder : Digit) (hradix : 2 ≤ radix.toNat) (hmax : radix.toNat ≤ 36)
  (hr : remainder.toNat < radix.toNat)

include hradix hmax

include hr in
theorem pairStep_high : (pairStep radix high low remainder).high.toNat = high.toNat / 2 ^ 10 + remainder.toNat * 2 ^ 22 := by
  have hlt := high.isLt
  have hfit : ShiftFits remainder 22 := by
    unfold ShiftFits
    omega
  have hx : (high >>> 10).toNat < 2 ^ 22 := by
    rw [toNat_shiftRight]
    omega
  show ((high >>> 10) ||| (remainder <<< 22)).toNat = _
  rw [toNat_or_shifted hx hfit, toNat_shiftRight]

theorem pairStep_mid : (pairStep radix high low remainder).mid.toNat =
    low.toNat / 2 ^ 22 + high.toNat % 2 ^ 10 * 2 ^ 10 +
      (pairStep radix high low remainder).high.toNat % radix.toNat * 2 ^ 20 := by
  have hlow := low.isLt
  have hrem : ((pairStep radix high low remainder).high % radix).toNat < radix.toNat := by
    rw [BitVec.toNat_umod]
    exact Nat.mod_lt _ (by omega)
  have hfit : ShiftFits (high &&& extractBitsLowMask) 10 := by
    unfold ShiftFits
    rw [toNat_and_low]
    omega
  have hfit' : ShiftFits ((pairStep radix high low remainder).high % radix) 20 := by
    unfold ShiftFits
    omega
  have hx : (low >>> 22).toNat < 2 ^ 10 := by
    rw [toNat_shiftRight]
    omega
  -- The lowest part first: it is below both of the others.
  have hsum : ((low >>> 22) ||| ((high &&& extractBitsLowMask) <<< 10)).toNat = low.toNat / 2 ^ 22 + high.toNat % 2 ^ 10 * 2 ^ 10 := by
    rw [toNat_or_shifted hx hfit, toNat_shiftRight, toNat_and_low]
  have hy : ((low >>> 22) ||| ((high &&& extractBitsLowMask) <<< 10)).toNat < 2 ^ 20 := by
    rw [hsum]
    omega
  have heq : (pairStep radix high low remainder).mid = ((low >>> 22) ||| ((high &&& extractBitsLowMask) <<< 10)) |||
      (((pairStep radix high low remainder).high % radix) <<< 20) := by
    show ((high &&& extractBitsLowMask) <<< 10 ||| ((pairStep radix high low remainder).high % radix) <<< 20) ||| low >>> 22 = _
    rw [BitVec.or_comm _ (low >>> 22), BitVec.or_assoc]
  rw [heq, toNat_or_shifted hy hfit', hsum, BitVec.toNat_umod]

theorem pairStep_low : (pairStep radix high low remainder).low.toNat =
    low.toNat % 2 ^ 22 + (pairStep radix high low remainder).mid.toNat % radix.toNat * 2 ^ 22 := by
  have hrem : ((pairStep radix high low remainder).mid % radix).toNat < radix.toNat := by
    rw [BitVec.toNat_umod]
    exact Nat.mod_lt _ (by omega)
  have hfit : ShiftFits ((pairStep radix high low remainder).mid % radix) 22 := by
    unfold ShiftFits
    omega
  have hx : (low &&& extractBitsHighMask).toNat < 2 ^ 22 := by
    rw [toNat_and_high]
    exact Nat.mod_lt _ (by decide)
  show ((low &&& extractBitsHighMask) ||| ((pairStep radix high low remainder).mid % radix) <<< 22).toNat = _
  rw [toNat_or_shifted hx hfit, toNat_and_high, BitVec.toNat_umod]

include hr in
/-- The quotients of the three parts fit into the bits of the parts. -/
theorem pairStep_quotients : (pairStep radix high low remainder).high.toNat / radix.toNat < 2 ^ 22 ∧
    (pairStep radix high low remainder).mid.toNat / radix.toNat < 2 ^ 20 ∧
    (pairStep radix high low remainder).low.toNat / radix.toNat < 2 ^ 22 := by
  have hhigh := high.isLt
  have hlow := low.isLt
  have hpart : ∀ x rem b : Nat, x < b → rem < radix.toNat → (x + rem * b) / radix.toNat < b := by
    intro x rem b hx hrem
    rw [Nat.div_lt_iff_lt_mul (by omega)]
    have := Nat.mul_le_mul_right b (Nat.succ_le_of_lt hrem)
    rw [Nat.succ_mul, Nat.mul_comm radix.toNat] at this
    omega
  have hmod : ∀ x, x % radix.toNat < radix.toNat := fun x => Nat.mod_lt x (by omega)
  rw [pairStep_low high low remainder hradix hmax, pairStep_mid high low remainder hradix hmax,
    pairStep_high high low remainder hradix hmax hr]
  exact ⟨hpart _ _ _ (by omega) hr, hpart _ _ _ (by omega) (hmod _), hpart _ _ _ (by omega) (hmod _)⟩

include hr in
theorem stepFits : StepFits radix high low remainder := by
  obtain ⟨hqh, hqm, -⟩ := pairStep_quotients high low remainder hradix hmax hr
  have hmod : ∀ x, x % radix.toNat < radix.toNat := fun x => Nat.mod_lt x (by omega)
  refine ⟨?_, ?_, ?_, ?_, ?_, ?_⟩
  · unfold ShiftFits extractBitsLow
    rw [toNat_and_low]
    omega
  · unfold ShiftFits extractBitsHigh extractBitsLow
    omega
  · have := hmod (pairStep radix high low remainder).high.toNat
    unfold ShiftFits extractBitsLow
    rw [BitVec.toNat_umod]
    omega
  · unfold ShiftFits extractBitsLow
    rw [BitVec.toNat_udiv]
    omega
  · have := hmod (pairStep radix high low remainder).mid.toNat
    unfold ShiftFits extractBitsHigh extractBitsLow
    rw [BitVec.toNat_umod]
    omega
  · rw [toNat_shiftRight, BitVec.toNat_shiftLeft, Nat.shiftLeft_eq, BitVec.toNat_udiv]
    unfold extractBitsHigh extractBitsLow
    omega

include hr in
/-- The quotient digits and the remainder of a step. -/
theorem dividePair_val :
    (dividePair radix high low remainder).2.2.toNat < radix.toNat ∧
      ((dividePair radix high low remainder).1.toNat * 2 ^ 32 + (dividePair radix high low remainder).2.1.toNat) * radix.toNat +
          (dividePair radix high low remainder).2.2.toNat =
        remainder.toNat * 2 ^ 64 + high.toNat * 2 ^ 32 + low.toNat := by
  obtain ⟨hqh, hqm, hql⟩ := pairStep_quotients high low remainder hradix hmax hr
  have hh := pairStep_high high low remainder hradix hmax hr
  have hm := pairStep_mid high low remainder hradix hmax
  have hl := pairStep_low high low remainder hradix hmax
  have hdh := Nat.div_add_mod' (pairStep radix high low remainder).high.toNat radix.toNat
  have hdm := Nat.div_add_mod' (pairStep radix high low remainder).mid.toNat radix.toNat
  have hdl := Nat.div_add_mod' (pairStep radix high low remainder).low.toNat radix.toNat
  have h1 : (dividePair radix high low remainder).1.toNat =
      (pairStep radix high low remainder).high.toNat / radix.toNat * 2 ^ 10 +
        (pairStep radix high low remainder).mid.toNat / radix.toNat / 2 ^ 10 := by
    have hfit : ShiftFits ((pairStep radix high low remainder).high / radix) 10 := by
      unfold ShiftFits
      rw [BitVec.toNat_udiv]
      omega
    have hx : (((pairStep radix high low remainder).mid / radix) >>> 10).toNat < 2 ^ 10 := by
      rw [toNat_shiftRight, BitVec.toNat_udiv]
      omega
    show (((pairStep radix high low remainder).high / radix) <<< 10 |||
      ((pairStep radix high low remainder).mid / radix) >>> 10).toNat = _
    rw [BitVec.or_comm, toNat_or_shifted hx hfit, toNat_shiftRight, BitVec.toNat_udiv, BitVec.toNat_udiv, Nat.add_comm]
  have h2 : (dividePair radix high low remainder).2.1.toNat =
      (pairStep radix high low remainder).low.toNat / radix.toNat +
        (pairStep radix high low remainder).mid.toNat / radix.toNat % 2 ^ 10 * 2 ^ 22 := by
    have hcut : ((pairStep radix high low remainder).mid / radix) <<< 22 =
        (((pairStep radix high low remainder).mid / radix) &&& extractBitsLowMask) <<< 22 := by
      apply BitVec.eq_of_toNat_eq
      rw [BitVec.toNat_shiftLeft, BitVec.toNat_shiftLeft, toNat_and_low, Nat.shiftLeft_eq, Nat.shiftLeft_eq]
      omega
    have hfit : ShiftFits (((pairStep radix high low remainder).mid / radix) &&& extractBitsLowMask) 22 := by
      unfold ShiftFits
      rw [toNat_and_low]
      omega
    have hx : ((pairStep radix high low remainder).low / radix).toNat < 2 ^ 22 := by
      rw [BitVec.toNat_udiv]
      exact hql
    show (((pairStep radix high low remainder).low / radix) |||
      ((pairStep radix high low remainder).mid / radix) <<< 22).toNat = _
    rw [hcut, toNat_or_shifted hx hfit, toNat_and_low, BitVec.toNat_udiv, BitVec.toNat_udiv]
  have h3 : (dividePair radix high low remainder).2.2.toNat = (pairStep radix high low remainder).low.toNat % radix.toNat :=
    BitVec.toNat_umod
  rw [h1, h2, h3]
  refine ⟨Nat.mod_lt _ (by omega), ?_⟩
  generalize (pairStep radix high low remainder).high.toNat = H at *
  generalize (pairStep radix high low remainder).mid.toNat = M at *
  generalize (pairStep radix high low remainder).low.toNat = L at *
  -- The quotient from its three parts.
  have hq : (H / radix.toNat * 2 ^ 10 + M / radix.toNat / 2 ^ 10) * 2 ^ 32 +
      (L / radix.toNat + M / radix.toNat % 2 ^ 10 * 2 ^ 22) =
        H / radix.toNat * 2 ^ 42 + M / radix.toNat * 2 ^ 22 + L / radix.toNat := by omega
  rw [hq]
  have hsum : H / radix.toNat * radix.toNat * 2 ^ 42 + M / radix.toNat * radix.toNat * 2 ^ 22 + L =
      remainder.toNat * 2 ^ 64 + high.toNat * 2 ^ 32 + low.toNat := by
    clear h1 h2 h3 hdl hqh hqm hql hq
    generalize H / radix.toNat * radix.toNat = a at *
    generalize M / radix.toNat * radix.toNat = b at *
    generalize H % radix.toNat = c at *
    generalize M % radix.toNat = d at *
    omega
  calc (H / radix.toNat * 2 ^ 42 + M / radix.toNat * 2 ^ 22 + L / radix.toNat) * radix.toNat + L % radix.toNat
      = H / radix.toNat * radix.toNat * 2 ^ 42 + M / radix.toNat * radix.toNat * 2 ^ 22 +
          (L / radix.toNat * radix.toNat + L % radix.toNat) := by ring
    _ = remainder.toNat * 2 ^ 64 + high.toNat * 2 ^ 32 + low.toNat := by rw [hdl, hsum]

end

/-! ## The loops -/

/-- One step of the first loop. -/
theorem divDigitLoop_cons {radix remainder : Digit} (d : Digit) (hr : remainder.toNat < radix.toNat) (ds : List Digit) :
    ∃ q r : Digit, divDigitLoop radix (d :: ds) remainder = (q :: (divDigitLoop radix ds r).1, (divDigitLoop radix ds r).2) ∧
      r.toNat < radix.toNat ∧ q.toNat * radix.toNat + r.toNat = remainder.toNat * 2 ^ 32 + d.toNat := by
  have hd := d.isLt
  have htwo := toNat_two_digits d remainder
  obtain ⟨hq, hm⟩ := toNat_two_digits_div
    (show (d.setWidth 64 ||| (remainder.setWidth 64 <<< 32) : TwoDigits).toNat < 2 ^ 32 * radix.toNat by omega)
  refine ⟨_, _, rfl, ?_, ?_⟩
  · rw [hm]
    exact Nat.mod_lt _ (by omega)
  · rw [hq, hm, htwo, Nat.div_add_mod']

theorem dividePairs_eq {radix : Digit} (hradix : 2 ≤ radix.toNat) (hmax : radix.toNat ≤ 36) (ds : List Digit)
    (heven : ds.length % 2 = 0) {remainder : Digit} (hr : remainder.toNat < radix.toNat) :
    dividePairs radix ds remainder = divDigitLoop radix ds remainder := by
  match ds, heven with
  | [], _ => rfl
  | [_], heven => cases heven
  | high :: low :: ds, heven =>
    obtain ⟨hlt, hval⟩ := dividePair_val high low remainder hradix hmax hr
    obtain ⟨q1, r1, h1, hr1, hv1⟩ := divDigitLoop_cons high hr (low :: ds)
    obtain ⟨q2, r2, h2, hr2, hv2⟩ := divDigitLoop_cons low hr1 ds
    have hrest := dividePairs_eq hradix hmax ds (by simp only [List.length_cons] at heven; omega) hlt
    -- Both steps together divide the two digits with the remainder above them.
    have hboth : (q1.toNat * 2 ^ 32 + q2.toNat) * radix.toNat + r2.toNat =
        remainder.toNat * 2 ^ 64 + high.toNat * 2 ^ 32 + low.toNat := by
      calc (q1.toNat * 2 ^ 32 + q2.toNat) * radix.toNat + r2.toNat
          = q1.toNat * radix.toNat * 2 ^ 32 + (q2.toNat * radix.toNat + r2.toNat) := by ring
        _ = (q1.toNat * radix.toNat + r1.toNat) * 2 ^ 32 + low.toNat := by
          rw [hv2]
          ring
        _ = _ := by
          rw [hv1]
          ring
    have hpos : 0 < radix.toNat := by omega
    generalize hpair : dividePair radix high low remainder = p at hlt hval hrest
    rw [← hboth] at hval
    have hrem : p.2.2 = r2 := by
      apply BitVec.eq_of_toNat_eq
      have := congrArg (· % radix.toNat) hval
      simp only [Nat.mul_add_mod_self_right, Nat.mod_eq_of_lt hlt, Nat.mod_eq_of_lt hr2] at this
      exact this
    have hquot : p.1.toNat * 2 ^ 32 + p.2.1.toNat = q1.toNat * 2 ^ 32 + q2.toNat := by
      rw [hrem] at hval
      exact Nat.eq_of_mul_eq_mul_right hpos (Nat.add_right_cancel hval)
    have hb1 := p.2.1.isLt
    have hb2 := q2.isLt
    have hhigh : p.1 = q1 := BitVec.eq_of_toNat_eq (by omega)
    have hlow : p.2.1 = q2 := BitVec.eq_of_toNat_eq (by omega)
    rw [h1, h2, dividePairs, hpair]
    dsimp only
    rw [hrest, hrem, hhigh, hlow]

/-- The digits and remainders of the steps of the second loop. -/
def pairsOf (radix : Digit) : List Digit → Digit → List (Digit × Digit × Digit)
  | high :: low :: ds, remainder =>
    (high, low, remainder) :: pairsOf radix ds (dividePair radix high low remainder).2.2
  | _, _ => []

def narrowSteps (radix : Digit) (digits : List Digit) : List (Digit × Digit × Digit) :=
  match digits.length % 2, digits.reverse with
  | 1, d :: ds => pairsOf radix ds (d % radix)
  | _, ds => pairsOf radix ds 0#32

theorem pairsOf_fit {radix : Digit} (hradix : 2 ≤ radix.toNat) (hmax : radix.toNat ≤ 36) (ds : List Digit)
    {remainder : Digit} (hr : remainder.toNat < radix.toNat) :
    ∀ s ∈ pairsOf radix ds remainder, StepFits radix s.1 s.2.1 s.2.2 := by
  match ds with
  | [] => exact fun s hs => nomatch hs
  | [_] => exact fun s hs => nomatch hs
  | high :: low :: ds =>
    intro s hs
    cases List.mem_cons.mp hs with
    | inl heq =>
      rw [heq]
      exact stepFits high low remainder hradix hmax hr
    | inr hin => exact pairsOf_fit hradix hmax ds (dividePair_val high low remainder hradix hmax hr).1 s hin

theorem narrow_eq_wide {radix : Digit} (hradix : 2 ≤ radix.toNat) (hmax : radix.toNat ≤ 36) (digits : List Digit) :
    dividePassNarrow radix digits = dividePassWide radix digits := by
  have hzero : (0#32).toNat < radix.toNat := Nat.lt_of_lt_of_le (by decide) hradix
  have hlen : digits.reverse.length = digits.length := List.length_reverse
  unfold dividePassNarrow dividePassWide
  split
  · rename_i d ds hodd heq
    rw [heq] at hlen ⊢
    have hmod : (d % radix).toNat < radix.toNat := by
      rw [BitVec.toNat_umod]
      exact Nat.mod_lt _ (by omega)
    have heven : ds.length % 2 = 0 := by
      rw [List.length_cons] at hlen
      omega
    obtain ⟨q, r, h, hr, hv⟩ := divDigitLoop_cons d hzero ds
    rw [BitVec.toNat_zero, Nat.zero_mul, Nat.zero_add] at hv
    have hrem : r = d % radix := by
      apply BitVec.eq_of_toNat_eq
      rw [BitVec.toNat_umod, ← hv, Nat.mul_add_mod_self_right, Nat.mod_eq_of_lt hr]
    have hquot : q = d / radix := by
      apply BitVec.eq_of_toNat_eq
      rw [BitVec.toNat_udiv, ← hv, Nat.mul_comm, Nat.mul_add_div (by omega), Nat.div_eq_of_lt hr, Nat.add_zero]
    rw [dividePairs_eq hradix hmax ds heven hmod, h, hrem, hquot]
  · rename_i hcase
    have heven : digits.reverse.length % 2 = 0 := by
      cases hrev : digits.reverse with
      | nil => rfl
      | cons d ds =>
        have hne : digits.length % 2 ≠ 1 := fun h1 => hcase d ds h1 hrev
        rw [← hrev, hlen]
        omega
    rw [dividePairs_eq hradix hmax _ heven hzero]

/-- Both loops leave the same quotient digits and the same remainder, and the second one loses bits only where they
have been stored before. -/
theorem division_kernels_agree {radix : Digit} (hradix : 2 ≤ radix.toNat) (hmax : radix.toNat ≤ 36) (digits : List Digit) :
    dividePassNarrow radix digits = dividePassWide radix digits ∧
      ∀ s ∈ narrowSteps radix digits, StepFits radix s.1 s.2.1 s.2.2 := by
  refine ⟨narrow_eq_wide hradix hmax digits, ?_⟩
  unfold narrowSteps
  split
  · refine pairsOf_fit hradix hmax _ ?_
    rw [BitVec.toNat_umod]
    exact Nat.mod_lt _ (by omega)
  · exact pairsOf_fit hradix hmax _ (Nat.lt_of_lt_of_le (by decide) hradix)

theorem division_kernels_agree_decimal :
    dividePassNarrow 10#32 [7#32, 5#32, 1#32] = dividePassWide 10#32 [7#32, 5#32, 1#32] ∧
      ∀ s ∈ narrowSteps 10#32 [7#32, 5#32, 1#32], StepFits 10#32 s.1 s.2.1 s.2.2 :=
  division_kernels_agree (by decide) (by decide) [7#32, 5#32, 1#32]

/-- The middle quotient loses bits when it is put into the low digit. -/
theorem mid_quotient_overflows :
    ∃ s ∈ narrowSteps 2#32 [0#32, maxDigit],
      ¬ ShiftFits ((pairStep 2#32 s.1 s.2.1 s.2.2).mid / 2#32) extractBitsHigh := by
  refine ⟨(maxDigit, 0#32, 0#32), List.mem_cons_self, ?_⟩
  unfold ShiftFits
  decide

end BigInt
end JJS
