import JJS.BigInt.Shift

/-!
# JJS.BigInt.Pow

`ecma_bigint_pow`. The squares of the base are multiplied into the result for the bits of the exponent. Every square
that is computed divides the power, so a square that does not fit means that the power does not fit.
-/

namespace JJS
namespace BigInt

open Radix

/-- `ECMA_BIGINT_NUMBER_IS_ODD`. -/
def isOdd (number : Digit) : Bool := number &&& 1#32 != 0#32

/-- The loop of `ecma_big_uint_pow`. Without a result there is nothing to multiply the square with. The first argument
bounds the number of steps: an exponent has 32 bits. -/
def powLoop : Nat → List Digit → Option (List Digit) → Digit → Res (List Digit)
  | 0, _, _, _ => .error .assertion
  | steps + 1, square, result, right => do
    let square ← ecmaBigUintMul square square
    let right := right >>> 1
    if isOdd right then do
      let result ← match result with
        | some result => ecmaBigUintMul square result
        | none => .ok square
      if right = 1#32 then .ok result else powLoop steps square (some result) right
    else powLoop steps square result right

/-- `ecma_big_uint_pow`. -/
def ecmaBigUintPow (left : List Digit) (right : Digit) : Res (List Digit) := do
  jjsAssert (2#32 ≤ right)
  powLoop 32 left (if isOdd right then some left else none) right

/-- `ecma_bigint_pow`. -/
def ecmaBigintPow (left right : Block) : Res Block :=
  if right = Block.zero then ecmaBigintCreateFromDigit 1#32 false
  else if right.sign then .error .negativeExponent
  else if left = Block.zero then .ok Block.zero
  else
    let power := right.digits.headD 0#32
    let base := if left.digits.length = 1 then left.digits.headD 0#32 else 0#32
    if base = 1#32 then
      if !left.sign || isOdd power then .ok left else ecmaBigintCreateFromDigit 1#32 false
    else if 1 < right.digits.length then .error .null
    else if power = 1#32 then .ok left
    else do
      let result ← if base = 2#32 then ecmaBigUintShiftLeft left.digits (power - 1#32) else ecmaBigUintPow left.digits power
      makeValue (left.sign && isOdd power) result

/-! ## Magnitudes -/

/-- The outcome for a magnitude. -/
def Magnitude (n : Nat) (r : Res (List Digit)) : Prop := ∃ ds, Trimmed ds ∧ val ds = n ∧ r = boxed ds

theorem exists_trimmed (n : Nat) : ∃ ds : List Digit, Trimmed ds ∧ val ds = n := by
  refine ⟨trim ((Nat.digits (2 ^ 32) n).map (BitVec.ofNat 32)), trimmed_trim _, ?_⟩
  rw [val_trim, val, List.map_map]
  have hid : (Nat.digits (2 ^ 32) n).map (BitVec.toNat ∘ BitVec.ofNat 32) = Nat.digits (2 ^ 32) n := by
    refine (List.map_congr_left ?_).trans (List.map_id _)
    intro d hd
    exact Nat.mod_eq_of_lt (Nat.digits_lt_base (by decide) hd)
  rw [hid, Nat.ofDigits_digits]

theorem isOdd_iff (number : Digit) : isOdd number = true ↔ number.toNat % 2 = 1 := by
  have hand : (number &&& 1#32).toNat = number.toNat % 2 := by
    rw [BitVec.toNat_and]
    exact Nat.and_one_is_mod _
  rw [isOdd, bne_iff_ne]
  constructor
  · intro h
    have := toNat_pos h
    rw [hand] at this
    omega
  · intro h
    refine ne_zero_of_toNat ?_
    rw [hand]
    omega

/-- A larger magnitude does not fit either. -/
theorem Magnitude.of_le {n m : Nat} {ds : List Digit} (hn : Trimmed ds) (hv : val ds = n) (hbig : maxSize < 4 * ds.length)
    (hle : n ≤ m) : Magnitude m (.error .null) := by
  obtain ⟨es, hes, hval⟩ := exists_trimmed m
  refine ⟨es, hes, hval, ?_⟩
  have hlen : ds.length ≤ es.length := by
    rw [hn.length_le_iff (by decide), hv]
    exact Nat.lt_of_le_of_lt hle (by rw [← hval]; exact val_lt es)
  rw [boxed, if_pos (by omega)]

/-- A product is one step of a computation of a larger magnitude. -/
theorem Magnitude.mul_bind {left right : List Digit} {n : Nat} {f : List Digit → Res (List Digit)} (hl : Trimmed left)
    (hr : Trimmed right) (hlne : left ≠ []) (hrne : right ≠ []) (hle : val left * val right ≤ n)
    (h : ∀ ds, Trimmed ds → ds ≠ [] → 4 * ds.length ≤ maxSize → val ds = val left * val right → Magnitude n (f ds)) :
    Magnitude n (ecmaBigUintMul left right >>= f) := by
  obtain ⟨ds, hn, hne, hv, he⟩ := ecmaBigUintMul_eq hl hr hlne hrne
  rw [he]
  by_cases hfit : maxSize < 4 * ds.length
  · rw [boxed, if_pos hfit, error_bind]
    exact Magnitude.of_le hn hv hfit hle
  · rw [boxed_ok (Nat.le_of_not_lt hfit), ok_bind]
    exact h ds hn hne (Nat.le_of_not_lt hfit) hv

/-! ## Exponentiation -/

/-- The number that a result stands for. -/
def resultVal (result : Option (List Digit)) : Nat := (result.map val).getD 1

theorem powLoop_eq (steps : Nat) {square : List Digit} {result : Option (List Digit)} {right : Digit}
    (hsquare : Trimmed square) (hsne : square ≠ [])
    (hresult : ∀ r, result = some r → Trimmed r ∧ r ≠ []) (hlow : 2 ≤ right.toNat) (hhigh : right.toNat < 2 ^ (steps + 1)) :
    Magnitude (resultVal result * val square ^ (2 * (right.toNat / 2))) (powLoop steps square result right) := by
  induction steps generalizing square result right with
  | zero => omega
  | succ steps ih =>
    have hpos := hsquare.val_pos hsne
    have hrpos : 0 < resultVal result := by
      cases result with
      | none => exact Nat.one_pos
      | some r =>
        obtain ⟨h1, h2⟩ := hresult r rfl
        exact h1.val_pos h2
    have hhalf : (right >>> 1).toNat = right.toNat / 2 := by
      rw [BitVec.toNat_ushiftRight, Nat.shiftRight_eq_div_pow, pow_one]
    have hpow : val square ^ (2 * (right.toNat / 2)) = (val square * val square) ^ (right.toNat / 2) := by
      rw [pow_mul, pow_two]
    have hone : 1 ≤ right.toNat / 2 := by omega
    rw [hpow]
    unfold powLoop
    refine Magnitude.mul_bind hsquare hsquare hsne hsne ?_ ?_
    · -- The square divides the power.
      calc val square * val square = (val square * val square) ^ 1 := (pow_one _).symm
        _ ≤ (val square * val square) ^ (right.toNat / 2) := Nat.pow_le_pow_right (Nat.mul_pos hpos hpos) hone
        _ ≤ _ := Nat.le_mul_of_pos_left _ hrpos
    · intro sq hsq hsqne hsqfit hsqval
      have hsqpos := hsq.val_pos hsqne
      rw [← hsqval]
      dsimp only
      by_cases hodd : isOdd (right >>> 1) = true
      · rw [if_pos hodd]
        have hmod := (isOdd_iff _).mp hodd
        rw [hhalf] at hmod
        have hsplit : val sq ^ (right.toNat / 2) = val sq * val sq ^ (2 * (right.toNat / 2 / 2)) := by
          rw [← pow_succ']
          congr 1
          omega
        -- What is left to do with the new result.
        have hnext : ∀ ds, Trimmed ds → ds ≠ [] → 4 * ds.length ≤ maxSize → val ds = resultVal result * val sq →
            Magnitude (resultVal result * val sq ^ (right.toNat / 2))
              (if right >>> 1 = 1#32 then .ok ds else powLoop steps sq (some ds) (right >>> 1)) := by
          intro ds hn hne hfit hv
          rw [hsplit, ← Nat.mul_assoc, ← hv]
          by_cases hend : right >>> 1 = 1#32
          · have h1 : right.toNat / 2 = 1 := by
              rw [← hhalf, hend]
              rfl
            rw [if_pos hend, h1, Nat.mul_zero, pow_zero, Nat.mul_one]
            exact ⟨ds, hn, rfl, (boxed_ok hfit).symm⟩
          · rw [if_neg hend]
            have hne1 : right.toNat / 2 ≠ 1 := by
              intro h1
              refine hend (BitVec.eq_of_toNat_eq ?_)
              rw [hhalf, h1]
              rfl
            rw [← hhalf]
            show Magnitude (resultVal (some ds) * val sq ^ (2 * ((right >>> 1).toNat / 2))) _
            refine ih hsq hsqne ?_ ?_ ?_
            · intro r hr
              cases hr
              exact ⟨hn, hne⟩
            · rw [hhalf]
              omega
            · rw [hhalf, Nat.div_lt_iff_lt_mul (by decide), ← pow_succ]
              exact hhigh
        cases result with
        | none => exact hnext sq hsq hsqne hsqfit (Nat.one_mul _).symm
        | some r =>
          obtain ⟨hr, hrne⟩ := hresult r rfl
          refine Magnitude.mul_bind hsq hr hsqne hrne ?_ ?_
          · show val sq * val r ≤ val r * val sq ^ (right.toNat / 2)
            rw [Nat.mul_comm]
            exact Nat.mul_le_mul_left _ (Nat.le_self_pow (Nat.ne_of_gt hone) _)
          · intro ds hn hne hfit hv
            refine hnext ds hn hne hfit ?_
            rw [hv, Nat.mul_comm]
            rfl
      · rw [if_neg hodd]
        have hmod : right.toNat / 2 % 2 = 0 := by
          have hnot := mt (isOdd_iff _).mpr hodd
          rw [hhalf] at hnot
          omega
        have heven : right.toNat / 2 = 2 * (right.toNat / 2 / 2) := by omega
        rw [heven, ← hhalf]
        refine ih hsq hsqne hresult ?_ ?_
        · rw [hhalf]
          omega
        · rw [hhalf, Nat.div_lt_iff_lt_mul (by decide), ← pow_succ]
          exact hhigh

theorem ecmaBigUintPow_eq {left : List Digit} {right : Digit} (hn : Trimmed left) (hne : left ≠ [])
    (hr : 2 ≤ right.toNat) : Magnitude (val left ^ right.toNat) (ecmaBigUintPow left right) := by
  have hassert : 2#32 ≤ right := by
    rw [BitVec.le_def]
    exact hr
  rw [ecmaBigUintPow, jjsAssert_ok hassert, ok_bind]
  have hlt : right.toNat < 2 ^ (32 + 1) := Nat.lt_trans right.isLt (by decide)
  by_cases hodd : isOdd right = true
  · rw [if_pos hodd]
    have hmod := (isOdd_iff _).mp hodd
    have hsplit : val left ^ right.toNat = resultVal (some left) * val left ^ (2 * (right.toNat / 2)) := by
      show _ = val left * val left ^ (2 * (right.toNat / 2))
      rw [← pow_succ']
      congr 1
      omega
    rw [hsplit]
    refine powLoop_eq 32 hn hne ?_ hr hlt
    intro r h
    cases h
    exact ⟨hn, hne⟩
  · rw [if_neg hodd]
    have hmod : right.toNat % 2 = 0 := by
      have hnot := mt (isOdd_iff _).mpr hodd
      omega
    have hsplit : val left ^ right.toNat = resultVal none * val left ^ (2 * (right.toNat / 2)) := by
      show _ = 1 * val left ^ (2 * (right.toNat / 2))
      rw [Nat.one_mul]
      congr 1
      omega
    rw [hsplit]
    refine powLoop_eq 32 hn hne ?_ hr hlt
    intro r h
    cases h

/-! ## Signed powers -/

theorem exact_of_magnitude {z : Int} {sign : Bool} {n : Nat} {r : Res (List Digit)} (h : Magnitude n r) (hpos : 0 < n)
    (hz : (if sign then -(n : Int) else n) = z) : Exact z (r >>= makeValue sign) := by
  obtain ⟨ds, hn, hv, he⟩ := h
  rw [he]
  refine exact_of_boxed hn ?_ (by rw [hv]; exact hz)
  intro hnil
  rw [hnil] at hv
  exact absurd hv (Nat.ne_of_lt hpos)

theorem neg_pow_parity (n k : Nat) (sign : Bool) :
    (if sign then -(n : Int) else n) ^ k = if (sign && (k % 2 == 1)) then -((n ^ k : Nat) : Int) else ((n ^ k : Nat) : Int) := by
  cases sign with
  | false => simp
  | true =>
    cases Nat.even_or_odd k with
    | inl h =>
      have h0 : k % 2 = 0 := Nat.even_iff.mp h
      simp [h.neg_pow, h0]
    | inr h =>
      have h1 : k % 2 = 1 := Nat.odd_iff.mp h
      simp [h.neg_pow, h1]

theorem isOdd_eq (number : Digit) : isOdd number = (number.toNat % 2 == 1) := by
  rw [Bool.eq_iff_iff, isOdd_iff, beq_iff_eq]

/-- The first digit has the parity of the number. -/
theorem isOdd_headD {ds : List Digit} (hne : ds ≠ []) : isOdd (ds.headD 0#32) = (val ds % 2 == 1) := by
  cases ds with
  | nil => exact absurd rfl hne
  | cons d ds =>
    rw [isOdd_eq, List.headD_cons, val_cons]
    congr 1
    omega

theorem pow_exact (a b : Value) (hb : 0 ≤ b.toInt) : Exact (a.toInt ^ b.toInt.toNat) (ecmaBigintPow a.toBlock b.toBlock) := by
  unfold ecmaBigintPow
  by_cases hb0 : b.toBlock = Block.zero
  · rw [if_pos hb0, toInt_of_eq_zero hb0, Int.toNat_zero, pow_zero]
    exact createFromDigit_exact false
  · rw [if_neg hb0]
    have hbne := ne_nil_of_ne_zero hb0
    have hbpos := b.trimmed.val_pos hbne
    have hbsign : b.sign = false := by
      rw [toInt_eq] at hb
      cases hs : b.sign with
      | false => rfl
      | true =>
        rw [hs, if_pos rfl] at hb
        omega
    have hbval : b.toInt.toNat = val b.digits := by
      rw [toInt_eq, hbsign]
      rfl
    rw [hbsign, if_neg (by decide), hbval]
    by_cases ha0 : a.toBlock = Block.zero
    · rw [if_pos ha0, toInt_of_eq_zero ha0, zero_pow (Nat.ne_of_gt hbpos)]
      exact exact_zero
    · rw [if_neg ha0]
      have hane := ne_nil_of_ne_zero ha0
      have hapos := a.trimmed.val_pos hane
      have hpow : a.toInt ^ val b.digits =
          if (a.sign && isOdd (b.digits.headD 0#32)) then -((val a.digits ^ val b.digits : Nat) : Int)
          else ((val a.digits ^ val b.digits : Nat) : Int) := by
        rw [toInt_eq, neg_pow_parity, isOdd_headD hbne]
      -- The base when it is one digit.
      have hbase : ∀ d : Digit, d ≠ 0#32 →
          ((if a.digits.length = 1 then a.digits.headD 0#32 else 0#32) = d ↔ val a.digits = d.toNat) := by
        intro d hd
        by_cases hlen : a.digits.length = 1
        · rw [if_pos hlen]
          obtain ⟨-, -, hv⟩ := digits_singleton a.trimmed hane (by omega)
          rw [hv, BitVec.toNat_inj]
        · rw [if_neg hlen]
          have hge := le_val_of_two_digits a.trimmed (by have := List.length_pos_iff.mpr hane; omega)
          have hlt := d.isLt
          exact iff_of_false (fun h => hd h.symm) (by omega)
      dsimp only
      simp only [hbase 1#32 (by decide), hbase 2#32 (by decide)]
      by_cases h1 : val a.digits = (1#32).toNat
      · have hone : val a.digits = 1 := h1
        rw [if_pos h1, hpow, hone, one_pow]
        have hself : a.toInt = if a.sign then -1 else 1 := by
          rw [toInt_eq, hone]
          rfl
        cases hs : a.sign with
        | false =>
          rw [hs] at hself
          exact exact_of_value a rfl hself
        | true =>
          rw [hs] at hself
          cases ho : isOdd (b.digits.headD 0#32) with
          | true => exact exact_of_value a rfl hself
          | false => exact createFromDigit_exact false
      · rw [if_neg h1]
        have htwo : 2 ≤ val a.digits := by
          have hne1 : val a.digits ≠ 1 := h1
          omega
        by_cases hlen : 1 < b.digits.length
        · rw [if_pos hlen]
          refine exact_null (le_val_of_two_digits b.trimmed hlen) ?_
          rw [Int.natAbs_pow, Value.natAbs_toInt]
          exact Nat.pow_le_pow_left htwo _
        · rw [if_neg hlen]
          obtain ⟨-, -, hbdigit⟩ := digits_singleton b.trimmed hbne hlen
          by_cases hp1 : b.digits.headD 0#32 = 1#32
          · rw [if_pos hp1, hbdigit, hp1]
            exact exact_of_value a rfl (pow_one _).symm
          · rw [if_neg hp1]
            have hptwo : 2 ≤ (b.digits.headD 0#32).toNat := by
              have hne1 : (b.digits.headD 0#32).toNat ≠ 1 := fun h => hp1 (BitVec.eq_of_toNat_eq h)
              omega
            by_cases h2 : val a.digits = (2#32).toNat
            · have hval2 : val a.digits = 2 := h2
              have hsub : (b.digits.headD 0#32 - 1#32).toNat = (b.digits.headD 0#32).toNat - 1 := by
                rw [BitVec.toNat_sub_of_le]
                · rfl
                · rw [BitVec.le_def]
                  exact Nat.le_of_lt hptwo
              have hgt : 0#32 < b.digits.headD 0#32 - 1#32 := by
                rw [BitVec.lt_def, hsub]
                exact Nat.sub_pos_of_lt hptwo
              obtain ⟨ds, hn, -, hv, he⟩ := ecmaBigUintShiftLeft_eq a.trimmed hane hgt
              rw [if_pos h2]
              refine exact_of_magnitude ⟨ds, hn, ?_, he⟩ (Nat.pow_pos hapos) hpow.symm
              rw [hv, hval2, hsub, ← pow_succ', hbdigit]
              congr 1
              omega
            · have hmag := ecmaBigUintPow_eq a.trimmed hane hptwo
              rw [← hbdigit] at hmag
              rw [if_neg h2]
              exact exact_of_magnitude hmag (Nat.pow_pos hapos) hpow.symm

theorem pow_negative (a b : Value) (hb : b.toInt < 0) : ecmaBigintPow a.toBlock b.toBlock = .error .negativeExponent := by
  have hsign : b.sign = true := by
    rw [toInt_eq] at hb
    cases hs : b.sign with
    | true => rfl
    | false =>
      rw [hs, if_neg (by decide)] at hb
      omega
  have hne : b.toBlock ≠ Block.zero := by
    intro h
    rw [h] at hsign
    cases hsign
  rw [ecmaBigintPow, if_neg hne, if_pos hsign]

/-- Shifts and powers are exact and keep values normalised; the range error is raised exactly when the digits of the
result do not fit, or the exponent is negative, and no assertion fails. -/
theorem bigint_shift_pow_exact (a b : Value) :
    Exact (scaled a.toInt b.toInt) (ecmaBigintShift a.toBlock b.toBlock true) ∧
    Exact (scaled a.toInt (-b.toInt)) (ecmaBigintShift a.toBlock b.toBlock false) ∧
    (0 ≤ b.toInt → Exact (a.toInt ^ b.toInt.toNat) (ecmaBigintPow a.toBlock b.toBlock)) ∧
    (b.toInt < 0 → ecmaBigintPow a.toBlock b.toBlock = .error .negativeExponent) :=
  ⟨shift_exact a b true, shift_exact a b false, pow_exact a b, pow_negative a b⟩

theorem bigint_shift_pow_exact_at :
    Exact (-1) (ecmaBigintShift ⟨true, [3#32]⟩ ⟨false, [2#32]⟩ false) ∧
      Exact 9 (ecmaBigintPow ⟨true, [3#32]⟩ ⟨false, [2#32]⟩) ∧
      ecmaBigintPow ⟨true, [3#32]⟩ ⟨true, [2#32]⟩ = .error .negativeExponent := by
  have h := bigint_shift_pow_exact (.ofDigits true [3#32] (by decide)) (.ofDigits false [2#32] (by decide))
  have h' := bigint_shift_pow_exact (.ofDigits true [3#32] (by decide)) (.ofDigits true [2#32] (by decide))
  exact ⟨h.2.1, h.2.2.1 (by decide), h'.2.2.2 (by decide)⟩

end BigInt
end JJS
