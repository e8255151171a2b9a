import JJS.BigInt.Division

/-!
# JJS.BigInt.DivMod

`ecma_big_uint_div_mod` and `ecma_bigint_div_mod`, put together from the shifts, the loop and the
two ways to take the result out of the buffer. `DigitsEstimated` collects the condition of the loop
over all positions. Result: for a divisor that is not zero, `ecma_bigint_div_mod` computes the
truncated quotient and the remainder exactly when the loop does not run or every position is
estimated well (`ecmaBigintDivMod_exact_iff`).
-/

namespace JJS
namespace BigInt

open Radix LongDivision

/-- The divisor of the loop. Without a shift it is used in place. -/
def shiftedDivisor (divisor : List Digit) (shiftLeft : Nat) : Res (List Digit) :=
  if 0 < shiftLeft then ecmaBigUintDivShiftLeft divisor shiftLeft false else .ok divisor

/-- The number of bits both operands are shifted by. -/
def divisorShift (divisor : List Digit) : Nat := (ecmaBigUintCountLeadingZero (divisor.getLastD 0#32)).toNat

/-- `ecma_big_uint_div_mod`. -/
def ecmaBigUintDivMod (ndebug : Bool) (dividend divisor : List Digit) (isMod : Bool) : Res (List Digit) := do
  assertDigits divisor
  if divisor.length = 1 then ecmaBigUintDivDigit dividend (divisor.headD 0#32) isMod
  else do
    let shiftLeft := divisorShift divisor
    let buffer ← ecmaBigUintDivShiftLeft dividend shiftLeft true
    assertDigits dividend
    jjsAssert (divisor.length ≤ dividend.length)
    let shifted ← shiftedDivisor divisor shiftLeft
    jjsAssert (shifted.getLastD 0#32 &&& (1#32 <<< 31) ≠ 0#32)
    let buffer ← divLoop ndebug shifted (dividend.length - divisor.length + 1) buffer
    if isMod then divRemainder divisor.length shiftLeft buffer
    else divQuotient divisor.length dividend.length buffer

/-- Every position of the loop for `dividend` and `divisor` is estimated well. -/
def DigitsEstimated (ndebug : Bool) (dividend divisor : List Digit) : Prop :=
  ∀ j, j + divisor.length ≤ dividend.length →
    EstimateOk ndebug divisor.length (val divisor * 2 ^ divisorShift divisor)
      (val dividend * 2 ^ divisorShift divisor / (2 ^ 32) ^ j % (2 ^ 32 * (val divisor * 2 ^ divisorShift divisor)))

theorem top_bit {d : Digit} (h : 2 ^ 31 ≤ d.toNat) : d &&& (1#32 <<< 31) ≠ 0#32 := by
  intro h0
  have hmsb : d.msb = true := by rw [BitVec.msb_eq_decide]; simpa using h
  have hbit := congrArg (fun x : Digit => x.getLsbD 31) h0
  simp [BitVec.msb_eq_getLsbD_last] at hmsb hbit
  rw [hmsb] at hbit
  simp at hbit

/-- The shifted divisor has all its digits, the top one with its highest bit set. -/
theorem shifted_bounds {divisor : List Digit} (hn : Trimmed divisor) (hne : divisor ≠ []) :
    divisorShift divisor < 32 ∧
      2 ^ 31 * (2 ^ 32) ^ (divisor.length - 1) ≤ val divisor * 2 ^ divisorShift divisor ∧
      val divisor * 2 ^ divisorShift divisor < (2 ^ 32) ^ divisor.length := by
  obtain ⟨as, top, rfl, htop⟩ := hn.exists_concat hne
  obtain ⟨hs, hlo, hhi⟩ := ecmaBigUintCountLeadingZero_spec htop
  have hdef : divisorShift (as ++ [top]) = (ecmaBigUintCountLeadingZero top).toNat := by
    rw [divisorShift, List.getLastD_concat]
  rw [hdef]
  generalize (ecmaBigUintCountLeadingZero top).toNat = s at hs hlo hhi
  have hlt := val_lt as
  have hsplit : 2 ^ (32 - s) * 2 ^ s = 2 ^ 32 := by rw [← pow_add]; congr 1; omega
  have htop1 : (top.toNat + 1) * 2 ^ s ≤ 2 ^ 32 := by
    rw [← hsplit] at hhi ⊢
    exact Nat.mul_le_mul_right _ (Nat.lt_of_mul_lt_mul_right hhi)
  rw [val_concat, List.length_append, List.length_singleton, Nat.add_sub_cancel, weight_succ]
  refine ⟨hs, ?_, ?_⟩
  · calc 2 ^ 31 * (2 ^ 32) ^ as.length ≤ top.toNat * 2 ^ s * (2 ^ 32) ^ as.length := Nat.mul_le_mul_right _ hlo
      _ = (2 ^ 32) ^ as.length * top.toNat * 2 ^ s := by ring
      _ ≤ _ := Nat.mul_le_mul_right _ (Nat.le_add_left _ _)
  · calc (val as + (2 ^ 32) ^ as.length * top.toNat) * 2 ^ s
        < ((2 ^ 32) ^ as.length + (2 ^ 32) ^ as.length * top.toNat) * 2 ^ s :=
          Nat.mul_lt_mul_of_pos_right (Nat.add_lt_add_right hlt _) (Nat.two_pow_pos s)
      _ = (top.toNat + 1) * 2 ^ s * (2 ^ 32) ^ as.length := by ring
      _ ≤ 2 ^ 32 * (2 ^ 32) ^ as.length := Nat.mul_le_mul_right _ htop1

theorem shiftedDivisor_ok {divisor : List Digit} (hn : Trimmed divisor) (hne : divisor ≠ []) :
    ∃ ds, shiftedDivisor divisor (divisorShift divisor) = .ok ds ∧ ds.length = divisor.length ∧
      val ds = val divisor * 2 ^ divisorShift divisor := by
  obtain ⟨hs, hlo, hhi⟩ := shifted_bounds hn hne
  unfold shiftedDivisor
  split
  · exact ecmaBigUintDivShiftLeft_ok hn hne hs (by omega) hhi
  · have h0 : divisorShift divisor = 0 := by omega
    exact ⟨divisor, rfl, rfl, by rw [h0]; simp⟩

section Magnitude

variable {a b : List Digit} (ndebug : Bool) (ha : Trimmed a) (hb : Trimmed b) (hn : 2 ≤ b.length)
  (hle : val b ≤ val a) (hfit : 4 * a.length ≤ maxSize)

include ha hb hn hle

/-- The state in which the loop starts: its invariant holds for the shifted operands. -/
theorem ecmaBigUintDivMod_start : ∃ shifted buffer, b.length ≤ a.length ∧ shifted.length = b.length ∧
    val shifted = val b * 2 ^ divisorShift b ∧ (2 ^ 32) ^ (shifted.length - 1) ≤ val shifted ∧
    buffer.length = a.length + 1 ∧
    val (buffer.take (a.length - b.length + 1 + shifted.length)) =
      val a * 2 ^ divisorShift b % ((2 ^ 32) ^ (a.length - b.length + 1) * val shifted) ∧
    val a * 2 ^ divisorShift b / val shifted % (2 ^ 32) ^ (a.length - b.length + 1) +
      (2 ^ 32) ^ (a.length - b.length + 1) * val (buffer.drop (a.length - b.length + 1 + shifted.length)) =
        val a / val b ∧
    ∀ isMod, ecmaBigUintDivMod ndebug a b isMod = (do
      let buffer ← divLoop ndebug shifted (a.length - b.length + 1) buffer
      if isMod then divRemainder b.length (divisorShift b) buffer
      else divQuotient b.length a.length buffer) := by
  have hbne : b ≠ [] := by rintro rfl; simp at hn
  have hane : a ≠ [] := by
    rintro rfl
    have := hb.val_pos hbne
    rw [val_nil] at hle
    omega
  obtain ⟨hs, hlo, hhi⟩ := shifted_bounds hb hbne
  have hlen : b.length ≤ a.length := by
    rw [hb.length_le_iff (by decide)]
    exact Nat.lt_of_le_of_lt hle (val_lt a)
  obtain ⟨shifted, hse, hsl, hsv⟩ := shiftedDivisor_ok hb hbne
  obtain ⟨buffer, hbe, hbl, hbv⟩ := ecmaBigUintDivShiftLeft_extend ha hane hs
  have htop : 2 ^ 31 * (2 ^ 32) ^ (shifted.length - 1) ≤ val shifted := by rw [hsv, hsl]; exact hlo
  have hbit : shifted.getLastD 0#32 &&& (1#32 <<< 31) ≠ 0#32 := by
    obtain ⟨xs, x, y, rfl⟩ := exists_two_top (show 2 ≤ shifted.length by omega)
    have hlast : (xs ++ [x, y]).getLastD 0#32 = y := by
      rw [show xs ++ [x, y] = xs ++ [x] ++ [y] by simp, List.getLastD_concat]
    rw [hlast]
    apply top_bit
    rw [← (val_top_div xs x y).2, Nat.le_div_iff_mul_le (Nat.pow_pos (by decide))]
    simpa using htop
  have hlt : val a * 2 ^ divisorShift b < (2 ^ 32) ^ (a.length - b.length + 1) * val shifted := by
    have h31 : 2 ^ divisorShift b ≤ 2 ^ 31 := Nat.pow_le_pow_right (by decide) (by omega)
    calc val a * 2 ^ divisorShift b < (2 ^ 32) ^ a.length * 2 ^ divisorShift b :=
          Nat.mul_lt_mul_of_pos_right (val_lt a) (Nat.two_pow_pos _)
      _ ≤ (2 ^ 32) ^ a.length * 2 ^ 31 := Nat.mul_le_mul_left _ h31
      _ = (2 ^ 32) ^ (a.length - b.length + 1) * (2 ^ 31 * (2 ^ 32) ^ (shifted.length - 1)) := by
          rw [Nat.mul_left_comm, ← pow_add, Nat.mul_comm]
          congr 2
          omega
      _ ≤ _ := Nat.mul_le_mul_left _ htop
  refine ⟨shifted, buffer, hlen, hsl, hsv, ?_, hbl, ?_, ?_, ?_⟩
  · exact Nat.le_trans (Nat.le_mul_of_pos_left _ (by decide)) htop
  · rw [List.take_of_length_le (by omega), hbv, Nat.mod_eq_of_lt hlt]
  · rw [List.drop_eq_nil_of_le (by omega), val_nil, Nat.mul_zero, Nat.add_zero]
    rw [Nat.mul_comm _ (val shifted)] at hlt
    rw [Nat.mod_eq_of_lt (Nat.div_lt_of_lt_mul hlt), hsv, Nat.mul_div_mul_right _ _ (Nat.two_pow_pos _)]
  · intro isMod
    rw [ecmaBigUintDivMod, assertDigits_ok hb hbne, ok_bind, if_neg (by omega)]
    simp only [hbe, ok_bind, assertDigits_ok ha hane, jjsAssert_ok hlen, hse, jjsAssert_ok hbit]

include hfit

theorem ecmaBigUintDivMod_exact (h : DigitsEstimated ndebug a b) :
    (∃ ds, Trimmed ds ∧ val ds = val a / val b ∧ ecmaBigUintDivMod ndebug a b false = .ok ds) ∧
      ∃ ds, Trimmed ds ∧ val ds = val a % val b ∧ ecmaBigUintDivMod ndebug a b true = .ok ds := by
  obtain ⟨shifted, buffer, hlen, hsl, hsv, htop, hbl, hinv, hdiv, hEq⟩ :=
    ecmaBigUintDivMod_start ndebug ha hb hn hle
  have hbne : b ≠ [] := by rintro rfl; simp at hn
  have hane : a ≠ [] := by rintro rfl; simp at hlen; exact hbne hlen
  have hs := (shifted_bounds hb hbne).1
  have hest : ∀ j, j < a.length - b.length + 1 → EstimateOk ndebug shifted.length (val shifted)
      (val a * 2 ^ divisorShift b / (2 ^ 32) ^ j % (2 ^ 32 * val shifted)) := by
    intro j hj
    rw [hsl, hsv]
    exact h j (by omega)
  obtain ⟨buffer', he, hbl', hrem, hquo⟩ := divLoop_exact (by omega) htop _ (by omega) hinv hest
  rw [hdiv, hsl] at hquo
  rw [hsl, hsv, Nat.mul_mod_mul_right] at hrem
  constructor
  · obtain ⟨ds, hde, hdv, hor⟩ := divQuotient_val (by omega : buffer'.length = a.length + 1) hlen (by omega) hfit
    refine ⟨ds, ?_, by rw [hdv, hquo], ?_⟩
    · rcases hor with hlen' | hnorm
      · -- the top digit was zero, so the quotient uses the one below
        refine trimmed_of_pow_le ?_
        rw [hlen', hdv, hquo, Nat.le_div_iff_mul_le (hb.val_pos hbne)]
        rcases Nat.eq_zero_or_pos (a.length - b.length) with h0 | h0
        · rw [h0]; simpa using hle
        · calc (2 ^ 32) ^ (a.length - b.length - 1) * val b ≤
                (2 ^ 32) ^ (a.length - b.length - 1) * (2 ^ 32) ^ b.length :=
                Nat.mul_le_mul_left _ (Nat.le_of_lt (val_lt b))
            _ = (2 ^ 32) ^ (a.length - 1) := by rw [← pow_add]; congr 1; omega
            _ ≤ val a := ha.pow_le_val hane
      · exact hnorm
    · rw [hEq, he, ok_bind]
      simpa using hde
  · obtain ⟨ds, hdn, hdv, hde⟩ := divRemainder_ok (by omega) (by omega : b.length < buffer'.length) (by omega) hs hrem
    refine ⟨ds, hdn, hdv, ?_⟩
    rw [hEq, he, ok_bind]
    simpa using hde

theorem ecmaBigUintDivMod_small (h : ¬ DigitsEstimated ndebug a b) {ds : List Digit}
    (hds : ecmaBigUintDivMod ndebug a b false = .ok ds) : val ds < val a / val b := by
  obtain ⟨shifted, buffer, hlen, hsl, hsv, htop, hbl, hinv, hdiv, hEq⟩ :=
    ecmaBigUintDivMod_start ndebug ha hb hn hle
  have hbad : ∃ j, j < a.length - b.length + 1 ∧ ¬ EstimateOk ndebug shifted.length (val shifted)
      (val a * 2 ^ divisorShift b / (2 ^ 32) ^ j % (2 ^ 32 * val shifted)) := by
    simp only [DigitsEstimated, not_forall] at h
    obtain ⟨j, hj, hne⟩ := h
    exact ⟨j, by omega, by rw [hsl, hsv]; exact hne⟩
  rw [hEq] at hds
  cases he : divLoop ndebug shifted (a.length - b.length + 1) buffer with
  | error e =>
    rw [he, error_bind] at hds
    cases hds
  | ok buffer' =>
    rw [he, ok_bind] at hds
    obtain ⟨hbl', -⟩ := divLoop_high _ (by omega) he
    have hsmall := divLoop_small (by omega) htop _ (by omega) hinv hbad he
    rw [hdiv, hsl] at hsmall
    obtain ⟨ds', hde, hdv, -⟩ := divQuotient_val (by omega : buffer'.length = a.length + 1) hlen (by omega) hfit
    simp only [Bool.false_eq_true, if_false] at hds
    rw [hde] at hds
    cases hds
    rw [hdv]
    exact hsmall

end Magnitude

/-! ## Signed division -/

/-- `ecma_bigint_div_mod`. -/
def ecmaBigintDivMod (ndebug : Bool) (left right : Block) (isMod : Bool) : Res Block :=
  if right = Block.zero then .error .zeroDivision
  else if left = Block.zero then .ok left
  else
    match ecmaBigUintCompare left.digits right.digits with
    | .lt => if isMod then .ok left else .ok Block.zero
    | .eq =>
      if isMod then .ok Block.zero
      else do
        ecmaBigintCreate 4
        makeValue (left.sign ^^ right.sign) [1#32]
    | .gt => do
      let digits ← ecmaBigUintDivMod ndebug left.digits right.digits isMod
      if digits = [] then .ok Block.zero
      else makeValue (if isMod then left.sign else left.sign ^^ right.sign) digits

/-- The two results are normalised, and are the quotient truncated toward zero and the remainder
with the sign of the dividend. -/
def DividesExactly (ndebug : Bool) (a b : Value) : Prop :=
  ∃ q r : Value, ecmaBigintDivMod ndebug a.toBlock b.toBlock false = .ok q.toBlock ∧
    ecmaBigintDivMod ndebug a.toBlock b.toBlock true = .ok r.toBlock ∧
    q.toInt = a.toInt.tdiv b.toInt ∧ r.toInt = a.toInt.tmod b.toInt ∧
    a.toInt = q.toInt * b.toInt + r.toInt ∧ r.toInt.natAbs < b.toInt.natAbs

section Signed

variable {ndebug : Bool} {a b : Value}

/-- Right magnitudes under the signs of `ecma_bigint_div_mod` divide exactly. -/
theorem dividesExactly_of_digits (qd rd : List Digit) (hb : b.digits ≠ [])
    (hq : ecmaBigintDivMod ndebug a.toBlock b.toBlock false = .ok (signedBlock (a.sign ^^ b.sign) qd))
    (hr : ecmaBigintDivMod ndebug a.toBlock b.toBlock true = .ok (signedBlock a.sign rd))
    (hqn : Trimmed qd) (hqv : val qd = val a.digits / val b.digits)
    (hrn : Trimmed rd) (hrv : val rd = val a.digits % val b.digits) : DividesExactly ndebug a b := by
  have hfit : ∀ {ds : List Digit}, Trimmed ds → val ds ≤ val a.digits → 4 * ds.length ≤ maxSize := by
    intro ds hn hle
    have : ds.length ≤ a.digits.length := by
      rw [hn.length_le_iff (by decide)]
      exact Nat.lt_of_le_of_lt hle (val_lt _)
    have := a.fits
    omega
  obtain ⟨q, hqb, hqz⟩ := signedBlock_value (a.sign ^^ b.sign) hqn (hfit hqn (hqv ▸ Nat.div_le_self _ _))
  obtain ⟨r, hrb, hrz⟩ := signedBlock_value a.sign hrn (hfit hrn (hrv ▸ Nat.mod_le _ _))
  have hbpos := b.trimmed.val_pos hb
  have hq' : q.toInt = a.toInt.tdiv b.toInt := by
    rw [hqz, hqv, toInt_eq, toInt_eq]
    cases a.sign <;> cases b.sign <;> simp [Int.neg_tdiv, Int.tdiv_neg]
  have hr' : r.toInt = a.toInt.tmod b.toInt := by
    rw [hrz, hrv, toInt_eq, toInt_eq]
    cases a.sign <;> cases b.sign <;> simp [Int.neg_tmod, Int.tmod_neg, Int.tmod_eq_emod_of_nonneg]
  refine ⟨q, r, by rw [hq, hqb], by rw [hr, hrb], hq', hr', ?_, ?_⟩
  · rw [hq', hr', Int.mul_comm]
    exact (Int.mul_tdiv_add_tmod _ _).symm
  · rw [hr', Int.natAbs_tmod, a.natAbs_toInt, b.natAbs_toInt]
    exact Nat.mod_lt _ hbpos

/-- Outside the loop the division is exact. -/
theorem dividesExactly_of_le (hb : b.digits ≠ []) (hle : val a.digits ≤ val b.digits) :
    DividesExactly ndebug a b := by
  have hbz : b.toBlock ≠ Block.zero := fun h => hb (congrArg Block.digits h)
  have hbpos := b.trimmed.val_pos hb
  by_cases ha : a.toBlock = Block.zero
  · have hnil : a.digits = [] := congrArg Block.digits ha
    have hEq : ∀ isMod, ecmaBigintDivMod ndebug a.toBlock b.toBlock isMod = .ok Block.zero := by
      intro isMod
      rw [ecmaBigintDivMod, if_neg hbz, if_pos ha, ha]
    exact dividesExactly_of_digits [] [] hb (hEq false) (hEq true) trimmed_nil (by simp [hnil]) trimmed_nil (by simp [hnil])
  · have hane := ne_nil_of_ne_zero ha
    have hcmp := ecmaBigUintCompare_eq a.trimmed b.trimmed
    rcases Nat.lt_or_eq_of_le hle with hlt | heq
    · rw [Nat.compare_eq_lt.mpr hlt] at hcmp
      refine dividesExactly_of_digits [] a.digits hb ?_ ?_ trimmed_nil ?_ a.trimmed ?_
      · simp [ecmaBigintDivMod, hbz, ha, hcmp, signedBlock]
      · simp [ecmaBigintDivMod, hbz, ha, hcmp, signedBlock, hane]
      · rw [Nat.div_eq_of_lt hlt]; rfl
      · rw [Nat.mod_eq_of_lt hlt]
    · rw [heq, Nat.compare_eq_eq.mpr rfl] at hcmp
      refine dividesExactly_of_digits [1#32] [] hb ?_ ?_ (by decide) ?_ trimmed_nil ?_
      · simp only [ecmaBigintDivMod, if_neg hbz, if_neg ha, hcmp, Bool.false_eq_true, if_false]
        rfl
      · simp [ecmaBigintDivMod, hbz, ha, hcmp, signedBlock]
      · rw [heq, Nat.div_self hbpos]; rfl
      · rw [heq, Nat.mod_self]; rfl

/-- The outcome for a dividend of larger magnitude, in terms of the magnitudes. -/
theorem ecmaBigintDivMod_gt (hb : b.digits ≠ []) (hlt : val b.digits < val a.digits) (isMod : Bool) :
    ecmaBigintDivMod ndebug a.toBlock b.toBlock isMod = (do
      let digits ← ecmaBigUintDivMod ndebug a.digits b.digits isMod
      .ok (signedBlock (if isMod then a.sign else a.sign ^^ b.sign) digits)) := by
  have hbz : b.toBlock ≠ Block.zero := fun h => hb (congrArg Block.digits h)
  have haz : a.toBlock ≠ Block.zero := by
    intro h
    rw [congrArg Block.digits h] at hlt
    simp [Block.zero] at hlt
  have hcmp := ecmaBigUintCompare_eq a.trimmed b.trimmed
  rw [Nat.compare_eq_gt.mpr hlt] at hcmp
  simp only [ecmaBigintDivMod, if_neg hbz, if_neg haz, hcmp]
  congr 1
  funext digits
  unfold signedBlock makeValue
  split <;> rfl

end Signed

/-- Division is exact just when the loop of Algorithm D does not run, or no estimate of a quotient
digit in it is too small (and, with assertions, none trips the assertion of D3). -/
theorem ecmaBigintDivMod_exact_iff (ndebug : Bool) (a b : Value) (hb : b.toBlock ≠ Block.zero) :
    DividesExactly ndebug a b ↔
      b.digits.length = 1 ∨ val a.digits ≤ val b.digits ∨ DigitsEstimated ndebug a.digits b.digits := by
  have hbne := ne_nil_of_ne_zero hb
  have hblen := List.length_pos_iff.mpr hbne
  constructor
  · intro hex
    by_contra hno
    simp only [not_or, not_le] at hno
    obtain ⟨h1, hlt, hbad⟩ := hno
    obtain ⟨q, r, hq, -, hqz, -⟩ := hex
    rw [ecmaBigintDivMod_gt hbne hlt] at hq
    cases he : ecmaBigUintDivMod ndebug a.digits b.digits false with
    | error e =>
      rw [he, error_bind] at hq
      cases hq
    | ok ds =>
      have hsmall := ecmaBigUintDivMod_small ndebug a.trimmed b.trimmed (by omega) (Nat.le_of_lt hlt) a.fits hbad he
      rw [he, ok_bind] at hq
      have hqd : q.digits = ds := by
        have := congrArg Block.digits (Except.ok.inj hq)
        rw [← this, signedBlock]
        split
        · rename_i h0; rw [h0]; rfl
        · rfl
      have hval := congrArg Int.natAbs hqz
      rw [Int.natAbs_tdiv, q.natAbs_toInt, a.natAbs_toInt, b.natAbs_toInt, hqd] at hval
      exact absurd hval (Nat.ne_of_lt hsmall)
  · intro h
    by_cases hle : val a.digits ≤ val b.digits
    · exact dividesExactly_of_le hbne hle
    · have hlt := Nat.lt_of_not_le hle
      have hmag : (∃ ds, Trimmed ds ∧ val ds = val a.digits / val b.digits ∧
          ecmaBigUintDivMod ndebug a.digits b.digits false = .ok ds) ∧
          ∃ ds, Trimmed ds ∧ val ds = val a.digits % val b.digits ∧
            ecmaBigUintDivMod ndebug a.digits b.digits true = .ok ds := by
        by_cases h1 : b.digits.length = 1
        · obtain ⟨d, hd⟩ := List.length_eq_one_iff.mp h1
          have hbn := b.trimmed
          have hle' := Nat.le_of_lt hlt
          rw [hd] at hbn hle' ⊢
          have hd0 : d ≠ 0#32 := by rintro rfl; exact hbn rfl
          have hEq : ∀ isMod, ecmaBigUintDivMod ndebug a.digits [d] isMod = ecmaBigUintDivDigit a.digits d isMod := by
            intro isMod
            rw [ecmaBigUintDivMod, assertDigits_ok hbn (by simp), ok_bind]
            rfl
          rw [hEq, hEq]
          have hv : val [d] = d.toNat := by simp
          rw [hv] at hle' ⊢
          obtain ⟨⟨qd, hqn, -, hqv, hqe⟩, hrem⟩ := ecmaBigUintDivDigit_ok a.trimmed hd0 a.fits hle'
          exact ⟨⟨qd, hqn, hqv, hqe⟩, hrem⟩
        · refine ecmaBigUintDivMod_exact ndebug a.trimmed b.trimmed (by omega) (Nat.le_of_lt hlt) a.fits ?_
          rcases h with h | h | h
          · exact absurd h h1
          · exact absurd h hle
          · exact h
      obtain ⟨⟨qd, hqn, hqv, hqe⟩, ⟨rd, hrn, hrv, hre⟩⟩ := hmag
      refine dividesExactly_of_digits qd rd hbne ?_ ?_ hqn hqv hrn hrv
      · rw [ecmaBigintDivMod_gt hbne hlt, hqe]; rfl
      · rw [ecmaBigintDivMod_gt hbne hlt, hre]; rfl

/-- `2 ^ 65 + 5` divided by `2 ^ 32 + 3`: both positions are estimated well. -/
theorem ecmaBigintDivMod_exact_at :
    DividesExactly false (.ofDigits false [5#32, 0#32, 2#32] (by decide)) (.ofDigits true [3#32, 1#32] (by decide)) := by
  refine (ecmaBigintDivMod_exact_iff false _ _ (by decide)).mpr (Or.inr (Or.inr ?_))
  intro j hj
  have hj' : j + 2 ≤ 3 := hj
  obtain rfl | rfl : j = 0 ∨ j = 1 := by omega
  · decide +kernel
  · decide +kernel

/-- `2 ^ 64 + 2` divided by `2 ^ 63 + 1` is 2, and the code computes 1: the correction loop lowers the
estimate 2, since `2 * divisor_low` is more than `divisor_low`. -/
theorem ecmaBigintDivMod_not_exact :
    ecmaBigintDivMod true ⟨false, [2#32, 0#32, 1#32]⟩ ⟨false, [1#32, 0x80000000#32]⟩ false = .ok ⟨false, [1#32]⟩ ∧
    ¬ ∀ (ndebug : Bool) (a b : Value), b.toBlock ≠ Block.zero → DividesExactly ndebug a b := by
  have hcode : ecmaBigintDivMod true ⟨false, [2#32, 0#32, 1#32]⟩ ⟨false, [1#32, 0x80000000#32]⟩ false =
      .ok ⟨false, [1#32]⟩ := by decide +kernel
  refine ⟨hcode, fun hall => ?_⟩
  obtain ⟨q, r, hq, -, hqz, -⟩ := hall true (.ofDigits false [2#32, 0#32, 1#32] (by decide))
    (.ofDigits false [1#32, 0x80000000#32] (by decide)) (by decide)
  have hq' : q.toBlock = ⟨false, [1#32]⟩ := (Except.ok.inj (hcode.symm.trans hq)).symm
  rw [Value.toInt, hq'] at hqz
  revert hqz
  decide +kernel

end BigInt
end JJS
