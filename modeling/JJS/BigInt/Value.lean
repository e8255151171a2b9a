import JJS.BigInt.Arith

/-!
# JJS.BigInt.Value

BigInt values and the signed arithmetic of `ecma-bigint.c`. A value is a sign bit and a digit
block; `ECMA_BIGINT_ZERO` is the value without digits. The operations work on raw blocks, as the
code does, and `Value` is a block together with the proof that it is normalised: no leading zero
digit, no negative zero, and no more digits than `ECMA_BIGINT_MAX_SIZE` allows.

`Exact z r` says that the outcome `r` of an operation is the one for the number `z`: the normalised
value that denotes `z`, or the range error when the digits of `z` do not fit. Results: every
operation below is `Exact` for the number it should compute.
-/

namespace JJS
namespace BigInt

open Radix

structure Block where
  sign : Bool
  digits : List Digit
  deriving DecidableEq

namespace Block

/-- `ECMA_BIGINT_ZERO`. -/
def zero : Block := ⟨false, []⟩

def toInt (b : Block) : Int := if b.sign then -(val b.digits : Int) else val b.digits

structure Normalised (b : Block) : Prop where
  trimmed : Trimmed b.digits
  no_negative_zero : b.digits = [] → b.sign = false
  fits : 4 * b.digits.length ≤ maxSize

end Block

/-- A normalised BigInt. -/
structure Value extends Block where
  normalised : toBlock.Normalised

namespace Value

def toInt (v : Value) : Int := v.toBlock.toInt

theorem trimmed (v : Value) : Trimmed v.digits := v.normalised.trimmed

theorem fits (v : Value) : 4 * v.digits.length ≤ maxSize := v.normalised.fits

theorem eq_zero_of_nil {v : Value} (h : v.digits = []) : v.toBlock = Block.zero := by
  have hs := v.normalised.no_negative_zero h
  cases v with
  | mk b n =>
    cases b with
    | mk s ds =>
      simp only at h hs
      subst h; subst hs
      rfl

theorem natAbs_toInt (v : Value) : v.toInt.natAbs = val v.digits := by
  rw [toInt, Block.toInt]
  split <;> simp

/-- A normalised value given by its digits. -/
def ofDigits (sign : Bool) (digits : List Digit) (h : digits ≠ [] ∧ Trimmed digits ∧ 4 * digits.length ≤ maxSize) :
    Value :=
  ⟨⟨sign, digits⟩, h.2.1, fun h' => absurd h' h.1, h.2.2⟩

/-- A normalised value is determined by its number. -/
theorem toBlock_eq {v v' : Value} (h : v.toInt = v'.toInt) : v.toBlock = v'.toBlock := by
  have hdigits : v.digits = v'.digits := by
    refine v.trimmed.ext (by decide) v'.trimmed ?_
    rw [← v.natAbs_toInt, ← v'.natAbs_toInt, h]
  by_cases hnil : v.digits = []
  · rw [eq_zero_of_nil hnil, eq_zero_of_nil (hdigits ▸ hnil)]
  · have hpos := v.trimmed.val_pos hnil
    have hsign : v.sign = v'.sign := by
      rw [toInt, toInt, Block.toInt, Block.toInt, ← hdigits] at h
      cases hv : v.sign with
      | true =>
        cases hv' : v'.sign with
        | true => rfl
        | false =>
          rw [hv, hv', if_pos rfl, if_neg (by decide)] at h
          omega
      | false =>
        cases hv' : v'.sign with
        | true =>
          rw [hv, hv', if_pos rfl, if_neg (by decide)] at h
          omega
        | false => rfl
    cases hv : v.toBlock with
    | mk s ds =>
      cases hv' : v'.toBlock with
      | mk s' ds' =>
        rw [hv, hv'] at hdigits hsign
        cases hdigits
        cases hsign
        rfl

end Value

/-! ## Exact outcomes -/

/-- The number of digits of a number. -/
def digitCount (z : Int) : Nat := (Nat.digits (2 ^ 32) z.natAbs).length

/-- The outcome an operation must have whose exact result is `z`. -/
def Exact (z : Int) (r : Res Block) : Prop :=
  if 4 * digitCount z ≤ maxSize then ∃ v : Value, r = .ok v.toBlock ∧ v.toInt = z
  else r = .error .null

theorem digitCount_eq {z : Int} {ds : List Digit} (hn : Trimmed ds) (hv : val ds = z.natAbs) :
    digitCount z = ds.length := by
  have key : ∀ n, digitCount z ≤ n ↔ ds.length ≤ n := by
    intro n
    rw [hn.length_le_iff (by decide), hv, digitCount]
    exact Nat.digits_length_le_iff (by decide) z.natAbs
  have h1 := (key ds.length).mpr (Nat.le_refl _)
  have h2 := (key (digitCount z)).mp (Nat.le_refl _)
  omega

theorem exact_of_value {z : Int} {r : Res Block} (v : Value) (hr : r = .ok v.toBlock) (hz : v.toInt = z) :
    Exact z r := by
  have hc : digitCount z = v.digits.length :=
    digitCount_eq v.trimmed (by rw [← hz, Value.natAbs_toInt])
  rw [Exact, hc, if_pos v.fits]
  exact ⟨v, hr, hz⟩

theorem exact_zero : Exact 0 (.ok Block.zero) :=
  exact_of_value ⟨Block.zero, trimmed_nil, fun _ => rfl, Nat.zero_le _⟩ rfl rfl

/-- `result_p->u.bigint_sign_and_size |= sign`, then `ecma_make_extended_primitive_value`. The
pointer to zero has no block that could take the sign. -/
def makeValue (sign : Bool) (digits : List Digit) : Res Block :=
  if digits = [] then .error .assertion else .ok ⟨sign, digits⟩

/-- A routine that computes the magnitude gives the exact outcome under the right sign. -/
theorem exact_of_boxed {z : Int} {sign : Bool} {ds : List Digit} (hn : Trimmed ds) (hne : ds ≠ [])
    (hz : (if sign then -(val ds : Int) else val ds) = z) : Exact z (boxed ds >>= makeValue sign) := by
  have hc : digitCount z = ds.length := digitCount_eq hn (by rw [← hz]; split <;> simp)
  by_cases hf : 4 * ds.length ≤ maxSize
  · rw [boxed_ok hf, ok_bind, makeValue, if_neg hne]
    exact exact_of_value ⟨⟨sign, ds⟩, hn, fun h => absurd h hne, hf⟩ rfl hz
  · rw [Exact, hc, if_neg hf, boxed, if_pos (by omega), error_bind]

/-- The block for a magnitude that may be zero. -/
def signedBlock (sign : Bool) (digits : List Digit) : Block :=
  if digits = [] then Block.zero else ⟨sign, digits⟩

theorem signedBlock_value (sign : Bool) {ds : List Digit} (hn : Trimmed ds) (hfit : 4 * ds.length ≤ maxSize) :
    ∃ v : Value, v.toBlock = signedBlock sign ds ∧ v.toInt = if sign then -(val ds : Int) else val ds := by
  unfold signedBlock
  split
  · rename_i h0
    refine ⟨⟨Block.zero, trimmed_nil, fun _ => rfl, Nat.zero_le _⟩, rfl, ?_⟩
    rw [h0]
    cases sign <;> rfl
  · rename_i h0
    exact ⟨⟨⟨sign, ds⟩, hn, fun h => absurd h h0, hfit⟩, rfl, rfl⟩

/-- The same for a magnitude that may be zero. -/
theorem exact_of_boxed_signed {z : Int} {sign : Bool} {ds : List Digit} (hn : Trimmed ds)
    (hz : (if sign then -(val ds : Int) else val ds) = z) :
    Exact z (boxed ds >>= fun digits => .ok (signedBlock sign digits)) := by
  by_cases hne : ds = []
  · subst hne
    have : z = 0 := by rw [← hz]; cases sign <;> rfl
    rw [this]
    exact exact_zero
  · have hEq : (boxed ds >>= fun digits => .ok (signedBlock sign digits)) = boxed ds >>= makeValue sign := by
      unfold boxed
      split
      · rfl
      · simp [signedBlock, makeValue, hne]
    rw [hEq]
    exact exact_of_boxed hn hne hz

/-! ## Operations -/

/-- `ecma_bigint_negate`, for a value that is not zero. -/
def ecmaBigintNegate (value : Block) : Res Block := do
  assertDigits value.digits
  ecmaBigintCreate (4 * value.digits.length)
  .ok ⟨!value.sign, value.digits⟩

/-- `ecma_bigint_create_from_digit`. -/
def ecmaBigintCreateFromDigit (digit : Digit) (sign : Bool) : Res Block := do
  jjsAssert (digit ≠ 0#32)
  ecmaBigintCreate 4
  .ok ⟨sign, [digit]⟩

inductive UnaryOp where
  | bitwiseNot
  | increase
  | decrease
  deriving DecidableEq, Repr

/-- `ecma_bigint_unary`. -/
def ecmaBigintUnary (value : Block) (type : UnaryOp) : Res Block :=
  if value = Block.zero then ecmaBigintCreateFromDigit 1#32 (type != .increase)
  else
    let sign := type != .decrease
    if value.sign = sign ∧ value.digits = [1#32] then .ok Block.zero
    else if value.sign = !sign then ecmaBigUintIncrease value.digits >>= makeValue (type != .increase)
    else ecmaBigUintDecrease value.digits >>= makeValue (type == .increase)

/-- `ecma_bigint_add_sub`. -/
def ecmaBigintAddSub (left right : Block) (isAdd : Bool) : Res Block :=
  if right = Block.zero then .ok left
  else if left = Block.zero then
    if isAdd then .ok right else ecmaBigintNegate right
  else if (left.sign ^^ right.sign) = !isAdd then
    ecmaBigUintAdd left.digits right.digits >>= makeValue left.sign
  else
    match ecmaBigUintCompare left.digits right.digits with
    | .eq => .ok Block.zero
    | .gt => ecmaBigUintSub left.digits right.digits >>= makeValue left.sign
    | .lt => ecmaBigUintSub right.digits left.digits >>= makeValue (right.sign ^^ !isAdd)

/-- `ecma_bigint_mul`. -/
def ecmaBigintMul (left right : Block) : Res Block :=
  if left = Block.zero ∨ right = Block.zero then .ok Block.zero
  else if left.digits = [1#32] then
    if left.sign then ecmaBigintNegate right else .ok right
  else if right.digits = [1#32] then
    if right.sign then ecmaBigintNegate left else .ok left
  else ecmaBigUintMul left.digits right.digits >>= makeValue (left.sign ^^ right.sign)

/-! ## Correctness -/

theorem ne_nil_of_ne_zero {v : Value} (h : v.toBlock ≠ Block.zero) : v.digits ≠ [] :=
  fun hnil => h (Value.eq_zero_of_nil hnil)

theorem toInt_of_eq_zero {v : Value} (h : v.toBlock = Block.zero) : v.toInt = 0 := by
  rw [Value.toInt, h]; rfl

theorem toInt_eq (v : Value) : v.toInt = if v.sign then -(val v.digits : Int) else val v.digits := rfl

theorem negate_exact (v : Value) (h : v.digits ≠ []) : Exact (-v.toInt) (ecmaBigintNegate v.toBlock) := by
  rw [ecmaBigintNegate, assertDigits_ok v.trimmed h, ok_bind, 
    ecmaBigintCreate_ok (List.length_pos_iff.mpr h) v.fits, ok_bind]
  refine exact_of_value ⟨⟨!v.sign, v.digits⟩, v.trimmed, fun h' => absurd h' h, v.fits⟩ rfl ?_
  rw [toInt_eq, toInt_eq]
  cases v.sign <;> simp

theorem createFromDigit_exact (sign : Bool) :
    Exact (if sign then -1 else 1) (ecmaBigintCreateFromDigit 1#32 sign) :=
  exact_of_value ⟨⟨sign, [1#32]⟩, (by decide : Trimmed [1#32]), fun h => absurd h (by simp),
    (by decide : 4 * [1#32].length ≤ maxSize)⟩ rfl (by cases sign <;> rfl)

/-- The number a unary operation computes. -/
def UnaryOp.apply : UnaryOp → Int → Int
  | .bitwiseNot, z => -z - 1
  | .increase, z => z + 1
  | .decrease, z => z - 1

theorem unary_exact (v : Value) (type : UnaryOp) :
    Exact (type.apply v.toInt) (ecmaBigintUnary v.toBlock type) := by
  unfold ecmaBigintUnary
  split
  · rename_i h0
    have := createFromDigit_exact (type != .increase)
    rw [toInt_of_eq_zero h0]
    cases type <;> simpa [UnaryOp.apply] using this
  · rename_i h0
    have hne := ne_nil_of_ne_zero h0
    simp only []
    split
    · rename_i h1
      have hz : type.apply v.toInt = 0 := by
        rw [toInt_eq, h1.1, h1.2]
        cases type <;> simp [UnaryOp.apply]
      rw [hz]
      exact exact_zero
    · rename_i h1
      split
      · rename_i hs
        obtain ⟨ds, hn, hdne, hv, he⟩ := ecmaBigUintIncrease_eq v.trimmed hne v.fits
        rw [he]
        refine exact_of_boxed hn hdne ?_
        rw [toInt_eq, hs, hv]
        cases type <;> simp [UnaryOp.apply] <;> omega
      · rename_i hs
        have hsign : v.sign = (type != .decrease) := by
          revert hs
          cases v.sign <;> cases (type != .decrease) <;> simp
        have hgt : 1 < val v.digits := by
          have hpos := v.trimmed.val_pos hne
          by_contra hle
          have hone : val v.digits = val [1#32] := by simp; omega
          exact h1 ⟨hsign, v.trimmed.ext (by decide) (by decide) hone⟩
        obtain ⟨ds, hn, hdne, hv, he⟩ := ecmaBigUintDecrease_eq v.trimmed hgt v.fits
        rw [he]
        refine exact_of_boxed hn hdne ?_
        rw [toInt_eq, hsign]
        cases type <;> simp [UnaryOp.apply] <;> omega

theorem addSub_exact (a b : Value) (isAdd : Bool) :
    Exact (if isAdd then a.toInt + b.toInt else a.toInt - b.toInt)
      (ecmaBigintAddSub a.toBlock b.toBlock isAdd) := by
  generalize hz : (if isAdd then a.toInt + b.toInt else a.toInt - b.toInt) = z
  unfold ecmaBigintAddSub
  split
  · rename_i hb
    refine exact_of_value a rfl ?_
    rw [← hz, toInt_of_eq_zero hb]
    split <;> simp
  · rename_i hb
    have hbne := ne_nil_of_ne_zero hb
    split
    · rename_i ha
      rw [← hz, toInt_of_eq_zero ha]
      cases isAdd with
      | true => exact exact_of_value b rfl (by simp)
      | false => simpa using negate_exact b hbne
    · rename_i ha
      have hane := ne_nil_of_ne_zero ha
      split
      · rename_i hs
        obtain ⟨ds, hn, hdne, hv, he⟩ :=
          ecmaBigUintAdd_eq a.trimmed b.trimmed hane hbne a.fits b.fits
        rw [he]
        refine exact_of_boxed hn hdne ?_
        rw [← hz, toInt_eq, toInt_eq, hv]
        cases isAdd <;> cases ha : a.sign <;> cases hb : b.sign <;> simp [ha, hb] at hs ⊢ <;> omega
      · rename_i hs
        have hcmp := ecmaBigUintCompare_eq a.trimmed b.trimmed
        rw [hcmp]
        split
        · rename_i heq
          have heq' := Nat.compare_eq_eq.mp heq
          have hz0 : z = 0 := by
            rw [← hz, toInt_eq, toInt_eq, heq']
            cases isAdd <;> cases ha : a.sign <;> cases hb : b.sign <;> simp [ha, hb] at hs ⊢
          rw [hz0]
          exact exact_zero
        · rename_i hgt
          have hlt := Nat.compare_eq_gt.mp hgt
          obtain ⟨ds, hn, hdne, hv, he⟩ := ecmaBigUintSub_eq a.trimmed b.trimmed hbne hlt a.fits
          rw [he]
          refine exact_of_boxed hn hdne ?_
          rw [← hz, toInt_eq, toInt_eq]
          cases isAdd <;> cases ha : a.sign <;> cases hb : b.sign <;> simp [ha, hb] at hs ⊢ <;> omega
        · rename_i hlt
          have hlt' := Nat.compare_eq_lt.mp hlt
          obtain ⟨ds, hn, hdne, hv, he⟩ := ecmaBigUintSub_eq b.trimmed a.trimmed hane hlt' b.fits
          rw [he]
          refine exact_of_boxed hn hdne ?_
          rw [← hz, toInt_eq, toInt_eq]
          cases isAdd <;> cases ha : a.sign <;> cases hb : b.sign <;> simp [ha, hb] at hs ⊢ <;> omega

theorem toInt_of_digits_one {v : Value} (h : v.digits = [1#32]) : v.toInt = if v.sign then -1 else 1 := by
  rw [toInt_eq, h]; rfl

theorem mul_exact (a b : Value) : Exact (a.toInt * b.toInt) (ecmaBigintMul a.toBlock b.toBlock) := by
  unfold ecmaBigintMul
  split
  · rename_i h
    have hz : a.toInt * b.toInt = 0 := by
      rcases h with h | h
      · rw [toInt_of_eq_zero h, Int.zero_mul]
      · rw [toInt_of_eq_zero h, Int.mul_zero]
    rw [hz]
    exact exact_zero
  · rename_i h
    have hane : a.digits ≠ [] := ne_nil_of_ne_zero (fun h' => h (Or.inl h'))
    have hbne : b.digits ≠ [] := ne_nil_of_ne_zero (fun h' => h (Or.inr h'))
    split
    · rename_i h1
      rw [toInt_of_digits_one h1]
      split
      · simpa using negate_exact b hbne
      · exact exact_of_value b rfl (by simp)
    · split
      · rename_i h1
        rw [toInt_of_digits_one h1]
        split
        · simpa using negate_exact a hane
        · exact exact_of_value a rfl (by simp)
      · obtain ⟨ds, hn, hdne, hv, he⟩ := ecmaBigUintMul_eq a.trimmed b.trimmed hane hbne
        rw [he]
        refine exact_of_boxed hn hdne ?_
        rw [toInt_eq, toInt_eq, hv]
        cases a.sign <;> cases b.sign <;> simp

/-- The additive and multiplicative operations are exact and keep values normalised; the range
error is raised exactly when the digits of the result do not fit, and no assertion fails. -/
theorem bigint_arith_exact (a b : Value) :
    Exact (a.toInt + b.toInt) (ecmaBigintAddSub a.toBlock b.toBlock true) ∧
    Exact (a.toInt - b.toInt) (ecmaBigintAddSub a.toBlock b.toBlock false) ∧
    Exact (a.toInt * b.toInt) (ecmaBigintMul a.toBlock b.toBlock) ∧
    (a.toBlock ≠ Block.zero → Exact (-a.toInt) (ecmaBigintNegate a.toBlock)) ∧
    Exact (a.toInt + 1) (ecmaBigintUnary a.toBlock .increase) ∧
    Exact (a.toInt - 1) (ecmaBigintUnary a.toBlock .decrease) ∧
    Exact (-a.toInt - 1) (ecmaBigintUnary a.toBlock .bitwiseNot) :=
  ⟨addSub_exact a b true, addSub_exact a b false, mul_exact a b,
    fun h => negate_exact a (ne_nil_of_ne_zero h),
    unary_exact a .increase, unary_exact a .decrease, unary_exact a .bitwiseNot⟩

theorem bigint_arith_exact_at :
    Exact 4 (ecmaBigintAddSub ⟨false, [7#32]⟩ ⟨true, [3#32]⟩ true) ∧
      Exact (-7) (ecmaBigintNegate ⟨false, [7#32]⟩) := by
  have h := bigint_arith_exact (.ofDigits false [7#32] (by decide)) (.ofDigits true [3#32] (by decide))
  exact ⟨h.1, h.2.2.2.1 (by decide)⟩

end BigInt
end JJS
