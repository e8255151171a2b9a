import JJS.BigInt.Division
import JJS.BigInt.Value

/-!
# JJS.BigInt.Shift

`ecma_bigint_shift`. A shift value is one digit: its upper bits count whole digits, its lower five bits the bits in a
digit. A shift of a negative value to the right rounds to minus infinity, which is an increment of the magnitude when
a bit that is not zero was shifted out.
-/

namespace JJS
namespace BigInt

open Radix

/-- `ECMA_BIGINT_DIGIT_SHIFT`. -/
def digitShift : Nat := 5

/-- The digits that are shifted as a whole. -/
def wholeDigits (shift : Digit) : Nat := shift.toNat >>> digitShift

/-- The shift in a digit. -/
def digitBits (shift : Digit) : Nat := shift.toNat &&& (1 <<< digitShift - 1)

/-- `ecma_big_uint_shift_left`. The sizes are less than `2 ^ 32`. -/
def ecmaBigUintShiftLeft (left : List Digit) (right : Digit) : Res (List Digit) := do
  jjsAssert (0#32 < right)
  assertDigits left
  let zeroSize := wholeDigits right * 4
  let shiftLeft := digitBits right
  let shiftRight := 32 - shiftLeft
  let resultSize := 4 * left.length + zeroSize +
    if 0 < shiftLeft ∧ left.getLastD 0#32 >>> shiftRight ≠ 0#32 then 4 else 0
  if maxSize < resultSize then .error .null
  else do
    ecmaBigintCreate resultSize
    let zeros := List.replicate (wholeDigits right) 0#32
    if shiftLeft = 0 then .ok (zeros ++ left)
    else
      let t := shiftLeftDigits shiftLeft left 0#32
      .ok (zeros ++ if 0#32 < t.2 then t.1 ++ [t.2] else t.1)

/-- `ecma_big_uint_shift_right`. -/
def ecmaBigUintShiftRight (left : List Digit) (right : Digit) (increaseResult : Bool) : Res (List Digit) := do
  jjsAssert (0#32 < right)
  assertDigits left
  let crop := wholeDigits right
  let shiftRight := digitBits right
  let shiftLeft := 32 - shiftRight
  let last := left.getLastD 0#32
  -- The last digit may have no bits in the result of its own.
  let s := if 0 < shiftRight ∧ last >>> shiftRight = 0#32 then (left.dropLast, last <<< shiftLeft) else (left, 0#32)
  if s.1.length ≤ crop then
    if increaseResult then do
      ecmaBigintCreate 4
      .ok [1#32]
    else .ok []
  else do
    let onlyZeros := (shiftRight = 0 ∨ s.1.getD crop 0#32 <<< shiftLeft = 0#32) ∧ (s.1.take crop).all (· == 0#32)
    ecmaBigintCreate (4 * (s.1.length - crop))
    let result := if shiftRight = 0 then s.1.drop crop else (shiftRightDigits shiftRight (s.1.drop crop).reverse s.2).reverse
    if increaseResult ∧ ¬ onlyZeros then ecmaBigUintIncreaseResult result else .ok result

/-- `ecma_bigint_shift`. -/
def ecmaBigintShift (left right : Block) (isLeft : Bool) : Res Block :=
  if left = Block.zero then .ok Block.zero
  else if right = Block.zero then .ok left
  else
    let isLeft := if right.sign then !isLeft else isLeft
    if 1 < right.digits.length then
      if isLeft then .error .null
      else if left.sign then ecmaBigintCreateFromDigit 1#32 true
      else .ok Block.zero
    else
      let shift := right.digits.headD 0#32
      if isLeft then ecmaBigUintShiftLeft left.digits shift >>= makeValue left.sign
      else do
        let result ← ecmaBigUintShiftRight left.digits shift left.sign
        if result = [] then .ok Block.zero else makeValue left.sign result

/-! ## The shift value -/

theorem digitBits_eq (shift : Digit) : digitBits shift = shift.toNat % 32 := Nat.and_two_pow_sub_one_eq_mod _ 5

theorem wholeDigits_eq (shift : Digit) : wholeDigits shift = shift.toNat / 32 := Nat.shiftRight_eq_div_pow _ 5

theorem digitBits_lt (shift : Digit) : digitBits shift < 32 := by
  rw [digitBits_eq]
  exact Nat.mod_lt _ (by decide)

/-- The weight of a shift. -/
theorem pow_shift (shift : Digit) : 2 ^ shift.toNat = (2 ^ 32) ^ wholeDigits shift * 2 ^ digitBits shift := by
  rw [← pow_mul, ← pow_add, wholeDigits_eq, digitBits_eq, Nat.div_add_mod]

/-! ## Shifting to the left -/

theorem shiftLeftDigits_carry (s : Nat) (vs : List Digit) (v carry : Digit) :
    (shiftLeftDigits s (vs ++ [v]) carry).2 = v >>> (32 - s) := by
  induction vs generalizing carry with
  | nil => rfl
  | cons u vs ih => exact ih _

theorem ecmaBigUintShiftLeft_eq {left : List Digit} {right : Digit} (hn : Trimmed left) (hne : left ≠ [])
    (hr : 0#32 < right) : ∃ ds, Trimmed ds ∧ ds ≠ [] ∧ val ds = val left * 2 ^ right.toNat ∧
      ecmaBigUintShiftLeft left right = boxed ds := by
  have hs := digitBits_lt right
  obtain ⟨as, d, hleft, hd⟩ := hn.exists_concat hne
  -- The digits that are written behind the zeros.
  have hdigits : ∃ es, Trimmed es ∧ es ≠ [] ∧ val es = val left * 2 ^ digitBits right ∧
      4 * es.length = 4 * left.length + (if 0 < digitBits right ∧ left.getLastD 0#32 >>> (32 - digitBits right) ≠ 0#32
        then 4 else 0) ∧
      (if digitBits right = 0 then left
        else if 0#32 < (shiftLeftDigits (digitBits right) left 0#32).2 then
          (shiftLeftDigits (digitBits right) left 0#32).1 ++ [(shiftLeftDigits (digitBits right) left 0#32).2]
        else (shiftLeftDigits (digitBits right) left 0#32).1) = es := by
    by_cases h0 : digitBits right = 0
    · refine ⟨left, hn, hne, by rw [h0]; simp, by rw [h0]; simp, by rw [if_pos h0]⟩
    · obtain ⟨hl, hv⟩ := shiftLeftDigits_val hs left (show (0#32).toNat < 2 ^ digitBits right from Nat.two_pow_pos _)
      have hcarry : (shiftLeftDigits (digitBits right) left 0#32).2 = left.getLastD 0#32 >>> (32 - digitBits right) := by
        rw [hleft, shiftLeftDigits_carry, List.getLastD_concat]
      rw [if_neg h0, ← hcarry]
      generalize shiftLeftDigits (digitBits right) left 0#32 = t at hl hv hcarry ⊢
      rw [BitVec.toNat_zero, Nat.add_zero] at hv
      by_cases hc : t.2 = 0#32
      · rw [hc, BitVec.toNat_zero, Nat.mul_zero, Nat.add_zero] at hv
        refine ⟨t.1, trimmed_of_pow_le ?_, ?_, hv, ?_, ?_⟩
        · rw [hl, hv]
          exact Nat.le_trans (hn.pow_le_val hne) (Nat.le_mul_of_pos_right _ (Nat.two_pow_pos _))
        · intro hnil
          rw [hnil] at hl
          exact hne (List.length_eq_zero_iff.mp hl.symm)
        · simp [hc, hl]
        · simp [hc]
      · have hpos : 0#32 < t.2 := by
          rw [BitVec.lt_def]
          exact toNat_pos hc
        refine ⟨t.1 ++ [t.2], trimmed_concat.mpr hc, by simp, ?_, ?_, ?_⟩
        · rw [val_concat, hl, hv]
        · rw [if_pos ⟨Nat.pos_of_ne_zero h0, hc⟩, List.length_append, hl]
          simp
          omega
        · rw [if_pos hpos]
  obtain ⟨es, htrim, hes, hval, hlen, hwritten⟩ := hdigits
  refine ⟨List.replicate (wholeDigits right) 0#32 ++ es, htrim.append_left _ hes, by simp [hes], ?_, ?_⟩
  · rw [val_append, val_replicate_zero, List.length_replicate, hval, pow_shift]
    ring
  · have hsize : 4 * left.length + wholeDigits right * 4 +
        (if 0 < digitBits right ∧ left.getLastD 0#32 >>> (32 - digitBits right) ≠ 0#32 then 4 else 0) =
        4 * (List.replicate (wholeDigits right) 0#32 ++ es).length := by
      rw [List.length_append, List.length_replicate]
      omega
    have hpos : 0 < (List.replicate (wholeDigits right) 0#32 ++ es).length := by
      rw [List.length_append]
      have := List.length_pos_iff.mpr hes
      omega
    simp only [ecmaBigUintShiftLeft, jjsAssert_ok hr, assertDigits_ok hn hne, ok_bind, hsize]
    by_cases hfit : maxSize < 4 * (List.replicate (wholeDigits right) 0#32 ++ es).length
    · rw [if_pos hfit, boxed, if_pos hfit]
    · rw [if_neg hfit, ecmaBigintCreate_ok hpos (by omega), ok_bind, boxed_ok (by omega), ← hwritten]
      by_cases h0 : digitBits right = 0
      · rw [if_pos h0, if_pos h0]
      · rw [if_neg h0, if_neg h0]

/-! ## Shifting to the right -/

/-- What is shifted out: the digits below the cut and the low bits of the digit at the cut. -/
theorem shifted_out {left : List Digit} {crop s : Nat} (hc : crop < left.length) (hs : s < 32) :
    val left % ((2 ^ 32) ^ crop * 2 ^ s) = 0 ↔ (left.getD crop 0#32).toNat % 2 ^ s = 0 ∧ val (left.take crop) = 0 := by
  have hsplit := val_take_add_drop left (Nat.le_of_lt hc)
  have hlt := val_lt (left.take crop)
  rw [List.length_take, Nat.min_eq_left (Nat.le_of_lt hc)] at hlt
  have hcons : left.drop crop = left.getD crop 0#32 :: left.drop (crop + 1) := by
    rw [List.drop_eq_getElem_cons hc]
    simp [List.getD, hc]
  have hlow : val (left.drop crop) % 2 ^ s = (left.getD crop 0#32).toNat % 2 ^ s := by
    obtain ⟨k, hk⟩ : ∃ k, 2 ^ 32 = 2 ^ s * k := ⟨2 ^ (32 - s), by rw [← pow_add]; congr 1; omega⟩
    rw [hcons, val_cons, hk, Nat.mul_assoc, Nat.add_mul_mod_self_left]
  rw [← hsplit, Nat.mod_mul, Nat.add_mul_mod_self_left, Nat.mod_eq_of_lt hlt,
    Nat.add_mul_div_left _ _ (Nat.pow_pos (by decide)), Nat.div_eq_of_lt hlt, Nat.zero_add, hlow]
  constructor
  · intro h
    have hz : (2 ^ 32) ^ crop * ((left.getD crop 0#32).toNat % 2 ^ s) = 0 := by omega
    cases Nat.mul_eq_zero.mp hz with
    | inl h0 => exact absurd h0 (Nat.ne_of_gt (Nat.pow_pos (by decide)))
    | inr h0 => exact ⟨h0, by omega⟩
  · intro h
    rw [h.1, h.2, Nat.mul_zero]

theorem shiftLeft_eq_zero_iff {s : Nat} (hs : s < 32) (d : Digit) : d <<< (32 - s) = 0#32 ↔ d.toNat % 2 ^ s = 0 := by
  have hw : 2 ^ s * 2 ^ (32 - s) = 2 ^ 32 := by rw [← pow_add]; congr 1; omega
  have hval : (d <<< (32 - s)).toNat = d.toNat % 2 ^ s * 2 ^ (32 - s) := by
    rw [BitVec.toNat_shiftLeft, Nat.shiftLeft_eq, ← hw, Nat.mul_mod_mul_right]
  constructor
  · intro h
    rw [h, BitVec.toNat_zero] at hval
    cases Nat.mul_eq_zero.mp hval.symm with
    | inl h0 => exact h0
    | inr h0 => exact absurd h0 (Nat.ne_of_gt (Nat.two_pow_pos _))
  · intro h
    rw [h, Nat.zero_mul] at hval
    exact BitVec.eq_of_toNat_eq hval

/-- The source of the shift: the digits that have bits in the result, and the bits of the digit above them. -/
structure ShiftSource (left : List Digit) (s : Nat) (source : List Digit) (top : Digit) : Prop where
  total : val left = val source + (2 ^ 32) ^ source.length * (top.toNat % 2 ^ s)
  length_le : source.length ≤ left.length
  used : source ≠ [] → (2 ^ 32) ^ (source.length - 1) * 2 ^ s ≤ val left
  low : ∀ i < source.length, left.getD i 0#32 = source.getD i 0#32
  take : ∀ i ≤ source.length, left.take i = source.take i

theorem shiftSource {left : List Digit} {s : Nat} (hn : Trimmed left) (hne : left ≠ []) (hs : s < 32) :
    ∃ source top, ShiftSource left s source top ∧
      (if 0 < s ∧ left.getLastD 0#32 >>> s = 0#32 then (left.dropLast, left.getLastD 0#32 <<< (32 - s)) else (left, 0#32)) =
        (source, top <<< (32 - s)) := by
  obtain ⟨as, d, hleft, hd⟩ := hn.exists_concat hne
  subst hleft
  rw [List.getLastD_concat, List.dropLast_concat]
  have hshift : (d >>> s).toNat = d.toNat / 2 ^ s := by
    rw [BitVec.toNat_ushiftRight, Nat.shiftRight_eq_div_pow]
  have hval := val_concat as d
  by_cases h : 0 < s ∧ d >>> s = 0#32
  · rw [if_pos h]
    refine ⟨as, d, ⟨?_, by simp, ?_, ?_, ?_⟩, rfl⟩
    · have hlt : d.toNat < 2 ^ s := by
        rw [h.2, BitVec.toNat_zero] at hshift
        exact (Nat.div_eq_zero_iff_lt (Nat.two_pow_pos s)).mp hshift.symm
      rw [Nat.mod_eq_of_lt hlt, hval]
    · intro has
      obtain ⟨n, hlen⟩ : ∃ n, as.length = n + 1 := Nat.exists_eq_succ_of_ne_zero fun h0 => has (List.length_eq_zero_iff.mp h0)
      have hpos := toNat_pos hd
      rw [hval, hlen, Nat.add_sub_cancel, weight_succ]
      calc (2 ^ 32) ^ n * 2 ^ s ≤ (2 ^ 32) ^ n * 2 ^ 32 :=
            Nat.mul_le_mul_left _ (Nat.pow_le_pow_right (by decide) (Nat.le_of_lt hs))
        _ = 2 ^ 32 * (2 ^ 32) ^ n * 1 := by ring
        _ ≤ 2 ^ 32 * (2 ^ 32) ^ n * d.toNat := Nat.mul_le_mul_left _ hpos
        _ ≤ _ := Nat.le_add_left _ _
    · intro i hi
      simp [List.getD, List.getElem?_append_left hi]
    · intro i hi
      exact List.take_append_of_le_length hi
  · rw [if_neg h]
    refine ⟨as ++ [d], 0#32, ⟨by simp, Nat.le_refl _, ?_, fun _ _ => rfl, fun _ _ => rfl⟩, by simp⟩
    intro _
    have hge : 2 ^ s ≤ d.toNat := by
      by_contra hlt
      have hzero : d >>> s = 0#32 := by
        apply BitVec.eq_of_toNat_eq
        rw [hshift, BitVec.toNat_zero]
        exact Nat.div_eq_of_lt (Nat.lt_of_not_le hlt)
      have h0 : s ≠ 0 := by
        intro h0
        rw [h0, pow_zero] at hlt
        have := toNat_pos hd
        omega
      exact h ⟨Nat.pos_of_ne_zero h0, hzero⟩
    rw [hval, List.length_append, List.length_singleton, Nat.add_sub_cancel]
    exact Nat.le_trans (Nat.mul_le_mul_left _ hge) (Nat.le_add_left _ _)

/-- The quotient, one more when it is rounded up and something was shifted out. -/
def shiftedRight (n shift : Nat) (roundUp : Bool) : Nat :=
  n / 2 ^ shift + if roundUp ∧ n % 2 ^ shift ≠ 0 then 1 else 0

theorem ecmaBigUintShiftRight_eq {left : List Digit} {right : Digit} (hn : Trimmed left) (hne : left ≠ [])
    (hfit : 4 * left.length ≤ maxSize) (hr : 0#32 < right) (increase : Bool) :
    ∃ ds, Trimmed ds ∧ 4 * ds.length ≤ maxSize ∧ val ds = shiftedRight (val left) right.toNat increase ∧
      ecmaBigUintShiftRight left right increase = .ok ds := by
  have hs := digitBits_lt right
  have hleft := hn.val_pos hne
  obtain ⟨source, top, hsource, heq⟩ := shiftSource hn hne hs
  simp only [ecmaBigUintShiftRight, jjsAssert_ok hr, assertDigits_ok hn hne, ok_bind, heq]
  have hpow := pow_shift right
  have htop : top.toNat % 2 ^ digitBits right < 2 ^ digitBits right := Nat.mod_lt _ (Nat.two_pow_pos _)
  have hlow : val source < (2 ^ 32) ^ source.length := val_lt source
  by_cases hshort : source.length ≤ wholeDigits right
  · -- Everything is shifted out.
    have hlt : val left < 2 ^ right.toNat := by
      rw [hpow, hsource.total]
      have hstep : val source + (2 ^ 32) ^ source.length * (top.toNat % 2 ^ digitBits right) <
          (2 ^ 32) ^ source.length * 2 ^ digitBits right := by
        have := Nat.mul_le_mul_left ((2 ^ 32) ^ source.length) (Nat.succ_le_of_lt htop)
        rw [Nat.mul_succ] at this
        omega
      exact Nat.lt_of_lt_of_le hstep (Nat.mul_le_mul_right _ (Nat.pow_le_pow_right (by decide) hshort))
    rw [if_pos hshort]
    unfold shiftedRight
    rw [Nat.div_eq_of_lt hlt, Nat.mod_eq_of_lt hlt]
    cases increase with
    | false =>
      refine ⟨[], trimmed_nil, Nat.zero_le _, by simp, ?_⟩
      rfl
    | true =>
      refine ⟨[1#32], by decide, by decide, ?_, rfl⟩
      rw [if_pos ⟨rfl, Nat.ne_of_gt hleft⟩]
      rfl
  · have hcrop : wholeDigits right < source.length := Nat.lt_of_not_le hshort
    have hsne : source ≠ [] := by
      intro hnil
      rw [hnil] at hcrop
      cases hcrop
    rw [if_neg hshort]
    have hout := shifted_out (s := digitBits right) (Nat.lt_of_lt_of_le hcrop hsource.length_le) hs
    rw [← hpow, hsource.low _ hcrop, hsource.take _ (Nat.le_of_lt hcrop)] at hout
    -- The digits that are written.
    have hresult : ∃ es, val es = val left / 2 ^ right.toNat ∧ es.length = source.length - wholeDigits right ∧ Trimmed es ∧
        (if digitBits right = 0 then source.drop (wholeDigits right)
          else (shiftRightDigits (digitBits right) (source.drop (wholeDigits right)).reverse
            (top <<< (32 - digitBits right))).reverse) = es := by
      have hdrop := val_drop source (Nat.le_of_lt hcrop)
      have hlen : (source.drop (wholeDigits right)).length = source.length - wholeDigits right := List.length_drop
      obtain ⟨es, hes, heslen, hesval⟩ := shiftBack_val hs (source.drop (wholeDigits right)) top
      have hquot : val es = val left / 2 ^ right.toNat := by
        have hsplit := val_take_add_drop source (Nat.le_of_lt hcrop)
        have htake := val_lt (source.take (wholeDigits right))
        rw [List.length_take, Nat.min_eq_left (Nat.le_of_lt hcrop)] at htake
        rw [hesval, hlen, hpow, ← Nat.div_div_eq_div_mul, hsource.total]
        congr 1
        have hweight : (2 ^ 32) ^ source.length = (2 ^ 32) ^ wholeDigits right * (2 ^ 32) ^ (source.length - wholeDigits right) := by
          rw [← pow_add]
          congr 1
          omega
        rw [hweight, Nat.mul_assoc, Nat.add_mul_div_left _ _ (Nat.pow_pos (by decide)), hdrop]
      refine ⟨es, hquot, by rw [heslen, hlen], trimmed_of_pow_le ?_, ?_⟩
      · rw [heslen, hlen, hquot, Nat.le_div_iff_mul_le (Nat.two_pow_pos _), hpow]
        refine Nat.le_trans (Nat.le_of_eq ?_) (hsource.used hsne)
        rw [← Nat.mul_assoc, ← pow_add]
        congr 2
        omega
      · by_cases h0 : digitBits right = 0
        · rw [if_neg (by omega)] at hes
          rw [if_pos h0]
          cases hes
          rfl
        · rw [if_pos (Nat.pos_of_ne_zero h0)] at hes
          rw [if_neg h0]
          cases hes
          rfl
    obtain ⟨es, hval, hlen, htrim, hwritten⟩ := hresult
    have hesne : es ≠ [] := by
      intro hnil
      rw [hnil] at hlen
      simp at hlen
      omega
    have hle := hsource.length_le
    have hesfit : 4 * es.length ≤ maxSize := by omega
    have honly : ((digitBits right = 0 ∨ source.getD (wholeDigits right) 0#32 <<< (32 - digitBits right) = 0#32) ∧
        (source.take (wholeDigits right)).all (· == 0#32) = true) ↔ val left % 2 ^ right.toNat = 0 := by
      rw [hout, ← val_eq_zero_iff_all, shiftLeft_eq_zero_iff hs]
      constructor
      · intro h
        refine ⟨?_, h.2⟩
        cases h.1 with
        | inl h0 => rw [h0, pow_zero, Nat.mod_one]
        | inr h0 => exact h0
      · intro h
        exact ⟨Or.inr h.1, h.2⟩
    rw [ecmaBigintCreate_ok (by omega) (by omega), ok_bind, hwritten]
    simp only [honly]
    unfold shiftedRight
    by_cases hinc : increase = true ∧ ¬ val left % 2 ^ right.toNat = 0
    · rw [if_pos hinc, if_pos hinc]
      obtain ⟨ds, hdtrim, hdval, hd⟩ := ecmaBigUintIncreaseResult_eq hesne hesfit
      have hdfit : 4 * ds.length ≤ maxSize := by
        have hdle : ds.length ≤ left.length := by
          rw [hdtrim.length_le_iff (by decide), hdval, hval]
          refine Nat.lt_of_le_of_lt ?_ (val_lt left)
          have htwo : 2 ≤ 2 ^ right.toNat := by
            have hone : 1 ≤ right.toNat := by
              rw [BitVec.lt_def] at hr
              exact hr
            exact Nat.le_trans (Nat.le_of_eq (pow_one 2).symm) (Nat.pow_le_pow_right (by decide) hone)
          have hdiv := Nat.div_mul_le_self (val left) (2 ^ right.toNat)
          have hmul := Nat.mul_le_mul_left (val left / 2 ^ right.toNat) htwo
          omega
        omega
      refine ⟨ds, hdtrim, hdfit, ?_, ?_⟩
      · rw [hdval, hval]
      · rw [hd, boxed_ok hdfit]
    · rw [if_neg hinc, if_neg hinc]
      exact ⟨es, htrim, hesfit, hval, rfl⟩

/-! ## Signed shifts -/

/-- The number `z * 2 ^ n`, rounded to minus infinity. -/
def scaled (z n : Int) : Int := if 0 ≤ n then z * 2 ^ n.toNat else z / 2 ^ (-n).toNat

theorem digitCount_le_iff {z : Int} {n : Nat} : digitCount z ≤ n ↔ z.natAbs < (2 ^ 32) ^ n :=
  Nat.digits_length_le_iff (by decide) z.natAbs

/-- The magnitude of a rounded quotient. -/
theorem ediv_neg_eq (n k : Nat) : -(n : Int) / 2 ^ k = -(shiftedRight n k true : Int) := by
  have hpos : (0 : Int) < 2 ^ k := Int.pow_pos (by decide)
  have hdm : ((n / 2 ^ k : Nat) : Int) * 2 ^ k + ((n % 2 ^ k : Nat) : Int) = n := by
    have := Nat.div_add_mod' n (2 ^ k)
    exact_mod_cast this
  have hlt : ((n % 2 ^ k : Nat) : Int) < 2 ^ k := by exact_mod_cast Nat.mod_lt n (Nat.two_pow_pos k)
  unfold shiftedRight
  by_cases h0 : n % 2 ^ k = 0
  · rw [if_neg fun h => h.2 h0, Nat.add_zero]
    rw [h0, Int.natCast_zero, Int.add_zero] at hdm
    rw [← hdm, ← Int.neg_mul, Int.mul_ediv_cancel _ (Int.ne_of_gt hpos)]
  · rw [if_pos ⟨rfl, h0⟩]
    have hmod : (0 : Int) < ((n % 2 ^ k : Nat) : Int) := by exact_mod_cast Nat.pos_of_ne_zero h0
    have hdecomp : -(n : Int) = (2 ^ k - ((n % 2 ^ k : Nat) : Int)) + 2 ^ k * (-(((n / 2 ^ k : Nat) : Int) + 1)) := by
      rw [← hdm]
      ring
    rw [hdecomp, Int.add_mul_ediv_left _ _ (Int.ne_of_gt hpos), Int.ediv_eq_zero_of_lt (by omega) (by omega)]
    push_cast
    ring

theorem shiftedRight_false (n k : Nat) : shiftedRight n k false = n / 2 ^ k := by
  simp [shiftedRight]

/-- A value that fits is small for a shift of more than one digit. -/
theorem val_lt_of_fits {ds : List Digit} (h : 4 * ds.length ≤ maxSize) {n : Nat} (hn : 2 ^ 32 ≤ n) : val ds < 2 ^ n := by
  have hlt := val_lt ds
  rw [← pow_mul] at hlt
  refine Nat.lt_of_lt_of_le hlt (Nat.pow_le_pow_right (by decide) ?_)
  have : maxSize = 65536 := rfl
  omega

/-- A number whose digits cannot fit. -/
theorem exact_null {z : Int} {n : Nat} (hn : 2 ^ 32 ≤ n) (h : 2 ^ n ≤ z.natAbs) : Exact z (.error .null) := by
  unfold Exact
  rw [if_neg]
  intro hfit
  have hle : digitCount z ≤ maxSize / 4 := by omega
  have hbits : 32 * (maxSize / 4) ≤ n := by
    have : maxSize = 65536 := rfl
    omega
  rw [digitCount_le_iff, ← pow_mul] at hle
  exact absurd (Nat.lt_of_le_of_lt h hle) (Nat.not_lt.mpr (Nat.pow_le_pow_right (by decide) hbits))

theorem le_val_of_two_digits {ds : List Digit} (h : Trimmed ds) (hlen : 1 < ds.length) : 2 ^ 32 ≤ val ds := by
  by_contra hlt
  have hone : ds.length ≤ 1 := by
    rw [h.length_le_iff (by decide), pow_one]
    exact Nat.lt_of_not_le hlt
  omega

theorem digits_singleton {ds : List Digit} (h : Trimmed ds) (hne : ds ≠ []) (hlen : ¬ 1 < ds.length) :
    ds = [ds.headD 0#32] ∧ 0#32 < ds.headD 0#32 ∧ val ds = (ds.headD 0#32).toNat := by
  have hpos := h.val_pos hne
  cases ds with
  | nil => exact absurd rfl hne
  | cons d ds =>
    have hnil : ds = [] := by
      cases ds with
      | nil => rfl
      | cons e es =>
        simp only [List.length_cons] at hlen
        omega
    rw [hnil] at hpos ⊢
    refine ⟨rfl, ?_, by simp⟩
    rw [BitVec.lt_def]
    simpa using hpos

theorem shift_exact (a b : Value) (isLeft : Bool) :
    Exact (scaled a.toInt (if isLeft then b.toInt else -b.toInt)) (ecmaBigintShift a.toBlock b.toBlock isLeft) := by
  unfold ecmaBigintShift
  by_cases ha : a.toBlock = Block.zero
  · rw [if_pos ha, toInt_of_eq_zero ha]
    have hz : ∀ n, scaled 0 n = 0 := by
      intro n
      unfold scaled
      split <;> simp
    rw [hz]
    exact exact_zero
  · rw [if_neg ha]
    by_cases hb : b.toBlock = Block.zero
    · rw [if_pos hb, toInt_of_eq_zero hb]
      exact exact_of_value a rfl (by cases isLeft <;> simp [scaled])
    · rw [if_neg hb]
      have hane := ne_nil_of_ne_zero ha
      have hbne := ne_nil_of_ne_zero hb
      have hbpos := b.trimmed.val_pos hbne
      have hapos := a.trimmed.val_pos hane
      -- The direction of the shift by the magnitude of `b`.
      have hdir : (if isLeft then b.toInt else -b.toInt) =
          if (if b.sign then !isLeft else isLeft) then (val b.digits : Int) else -(val b.digits : Int) := by
        rw [toInt_eq]
        cases isLeft <;> cases b.sign <;> simp
      rw [hdir]
      generalize (if b.sign then !isLeft else isLeft) = dir
      have hleft : scaled a.toInt (val b.digits) = a.toInt * 2 ^ val b.digits := by
        rw [scaled, if_pos (Int.natCast_nonneg _), Int.toNat_natCast]
      have hright : scaled a.toInt (-(val b.digits : Int)) = a.toInt / 2 ^ val b.digits := by
        rw [scaled, if_neg (by omega), Int.neg_neg, Int.toNat_natCast]
      -- The quotient, by the sign of `a`.
      have hquot : a.toInt / 2 ^ val b.digits =
          if a.sign then -(shiftedRight (val a.digits) (val b.digits) true : Int)
          else (shiftedRight (val a.digits) (val b.digits) false : Int) := by
        rw [toInt_eq]
        cases a.sign with
        | true => exact ediv_neg_eq _ _
        | false =>
          rw [shiftedRight_false]
          simp
      by_cases hlen : 1 < b.digits.length
      · rw [if_pos hlen]
        have hbig := le_val_of_two_digits b.trimmed hlen
        cases dir with
        | true =>
          rw [if_pos rfl, if_pos rfl, hleft]
          refine exact_null hbig ?_
          rw [Int.natAbs_mul, Value.natAbs_toInt, Int.natAbs_pow]
          exact Nat.le_mul_of_pos_left _ hapos
        | false =>
          have hlt := val_lt_of_fits a.fits hbig
          rw [if_neg (by decide), if_neg (by decide), hright, hquot]
          unfold shiftedRight
          rw [Nat.div_eq_of_lt hlt, Nat.mod_eq_of_lt hlt]
          cases a.sign with
          | true =>
            rw [if_pos rfl, if_pos rfl, if_pos ⟨rfl, Nat.ne_of_gt hapos⟩]
            exact createFromDigit_exact true
          | false =>
            rw [if_neg (by decide), if_neg fun h => Bool.noConfusion h.1, if_neg (by decide)]
            exact exact_zero
      · rw [if_neg hlen]
        obtain ⟨-, hshift, hbval⟩ := digits_singleton b.trimmed hbne hlen
        cases dir with
        | true =>
          rw [if_pos rfl, if_pos rfl, hleft]
          obtain ⟨ds, hn, hdne, hv, he⟩ := ecmaBigUintShiftLeft_eq a.trimmed hane hshift
          rw [he]
          refine exact_of_boxed hn hdne ?_
          rw [toInt_eq, hv, hbval]
          cases a.sign <;> simp
        | false =>
          rw [if_neg (by decide), if_neg (by decide), hright, hquot]
          obtain ⟨ds, hn, hfit, hv, he⟩ := ecmaBigUintShiftRight_eq a.trimmed hane a.fits hshift a.sign
          rw [hbval, he, ok_bind]
          have hsigned : (if ds = [] then .ok Block.zero else makeValue a.sign ds) =
              boxed ds >>= fun digits => .ok (signedBlock a.sign digits) := by
            rw [boxed_ok hfit, ok_bind, signedBlock]
            by_cases hnil : ds = []
            · rw [if_pos hnil, if_pos hnil]
            · rw [if_neg hnil, if_neg hnil, makeValue, if_neg hnil]
          rw [hsigned]
          refine exact_of_boxed_signed hn ?_
          rw [hv]
          cases a.sign <;> simp

end BigInt
end JJS
