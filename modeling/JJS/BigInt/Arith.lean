import JJS.BigInt.Basic

/-!
# JJS.BigInt.Arith

The magnitude arithmetic of `ecma-big-uint.c`: increase, decrease, add, subtract and multiply.
Each loop over digits is a recursion over the digit lists, with the carry as the code keeps it,
and the assertions inside the loops are part of the model. For every routine one theorem says
that no assertion fails and that the result is the trimmed digit list of the exact number, or the
null pointer when that list does not fit (`boxed`).
-/

namespace JJS
namespace BigInt

open Radix

/-! ## Increase and decrease -/

/-- Copy the digits, adding one: all-ones digits become zero until the first other digit. The
null case is an access past the end. -/
def increaseCopy : List Digit → Res (List Digit)
  | [] => .error .assertion
  | d :: ds =>
    if d = maxDigit then do
      let rest ← increaseCopy ds
      .ok (0#32 :: rest)
    else .ok ((d + 1#32) :: ds)

/-- `ecma_big_uint_increase`. The first loop only runs when the two end digits are all ones. -/
def ecmaBigUintIncrease (value : List Digit) : Res (List Digit) := do
  assertDigits value
  if value.head? = some maxDigit ∧ value.getLast? = some maxDigit ∧
      value.all (· == maxDigit) then do
    ecmaBigintCreate (4 * value.length + 4)
    .ok (List.replicate value.length 0#32 ++ [1#32])
  else do
    ecmaBigintCreate (4 * value.length)
    increaseCopy value

theorem increaseCopy_ok {ds : List Digit} (h : ¬ ds.all (· == maxDigit)) :
    ∃ rs, increaseCopy ds = .ok rs ∧ rs.length = ds.length ∧ val rs = val ds + 1 ∧
      (Trimmed ds → Trimmed rs) := by
  induction ds with
  | nil => simp at h
  | cons d ds ih =>
    by_cases hd : d = maxDigit
    · subst hd
      obtain ⟨rs, he, hl, hv, hn⟩ := ih (by simpa using h)
      have hne : ds ≠ [] := by rintro rfl; simp at h
      have hne' : rs ≠ [] := by rintro rfl; exact hne (List.length_eq_zero_iff.mp hl.symm)
      refine ⟨0#32 :: rs, by simp [increaseCopy, he], by simp [hl], ?_, ?_⟩
      · simp only [val_cons, hv]
        simp only [toNat_maxDigit, BitVec.toNat_zero]
        omega
      · intro hn'
        exact (hn (Trimmed.of_append [maxDigit] hne hn')).append_left [0#32] hne'
    · have h1 := toNat_lt_of_ne_maxDigit hd
      have h2 : (d + 1#32).toNat = d.toNat + 1 := by bv_omega
      refine ⟨(d + 1#32) :: ds, by simp [increaseCopy, hd], by simp, ?_, ?_⟩
      · simp only [val_cons, h2]; omega
      · intro hn
        cases ds with
        | nil => exact (show Trimmed ([] ++ [d + 1#32]) from trimmed_concat.mpr (ne_zero_of_toNat (by omega)))
        | cons e es => exact (Trimmed.of_append [d] (by simp) hn).append_left [d + 1#32] (by simp)

theorem ecmaBigUintIncrease_eq {value : List Digit} (hn : Trimmed value) (hne : value ≠ [])
    (hs : 4 * value.length ≤ maxSize) :
    ∃ ds, Trimmed ds ∧ ds ≠ [] ∧ val ds = val value + 1 ∧ ecmaBigUintIncrease value = boxed ds := by
  by_cases h : value.all (· == maxDigit)
  · have hrep : value = List.replicate value.length maxDigit := by
      refine List.eq_replicate_of_mem fun d hd => ?_
      simpa using List.all_eq_true.mp h d hd
    have hhead : value.head? = some maxDigit := by
      cases value with
      | nil => exact absurd rfl hne
      | cons d ds => simpa using (List.all_eq_true.mp h d (by simp))
    have hlast : value.getLast? = some maxDigit := by
      rw [List.getLast?_eq_some_getLast hne]
      simpa using List.all_eq_true.mp h _ (List.getLast_mem hne)
    have hv : val value + 1 = (2 ^ 32) ^ value.length := by
      conv_lhs => rw [hrep]
      exact val_replicate_ones value.length
    refine ⟨List.replicate value.length 0#32 ++ [1#32], trimmed_concat.mpr (by decide), by simp, ?_, ?_⟩
    · rw [val_concat, val_replicate_zero, List.length_replicate, hv]; simp
    · rw [ecmaBigUintIncrease, assertDigits_ok hn hne, ok_bind, if_pos ⟨hhead, hlast, h⟩, boxed,
        show 4 * value.length + 4 = 4 * (value.length + 1) by omega]
      simp only [List.length_append, List.length_replicate, List.length_singleton]
      split
      · rw [ecmaBigintCreate_null ‹_›, error_bind]
      · rw [ecmaBigintCreate_ok (by omega) (by omega), ok_bind]
  · obtain ⟨rs, he, hl, hv, hn'⟩ := increaseCopy_ok h
    refine ⟨rs, hn' hn, ?_, hv, ?_⟩
    · rintro rfl; exact hne (List.length_eq_zero_iff.mp hl.symm)
    · rw [ecmaBigUintIncrease, assertDigits_ok hn hne, ok_bind, if_neg (fun hc => h hc.2.2),
        ecmaBigintCreate_ok (List.length_pos_iff.mpr hne) hs, ok_bind, he, boxed_ok (by omega)]

/-- Copy the digits, subtracting one: zero digits become all ones until the first other digit. -/
def decreaseCopy : List Digit → Res (List Digit)
  | [] => .error .assertion
  | d :: ds =>
    if d = 0#32 then do
      let rest ← decreaseCopy ds
      .ok (maxDigit :: rest)
    else .ok ((d - 1#32) :: ds)

/-- `ecma_big_uint_decrease`. The first loop only runs when the value can be a power of the
base, and then the result is one digit shorter. -/
def ecmaBigUintDecrease (value : List Digit) : Res (List Digit) := do
  assertDigits value
  jjsAssert (4 < 4 * value.length ∨ 1#32 < value.headD 0#32)
  if value.head? = some 0#32 ∧ value.getLast? = some 1#32 ∧ value.dropLast.all (· == 0#32) then do
    ecmaBigintCreate (4 * value.length - 4)
    .ok (List.replicate (value.length - 1) maxDigit)
  else do
    ecmaBigintCreate (4 * value.length)
    decreaseCopy value

theorem decreaseCopy_ok {ds : List Digit} (h : 0 < val ds) :
    ∃ rs, decreaseCopy ds = .ok rs ∧ rs.length = ds.length ∧ val rs + 1 = val ds := by
  induction ds with
  | nil => simp at h
  | cons d ds ih =>
    by_cases hd : d = 0#32
    · subst hd
      simp only [val_cons, BitVec.toNat_zero] at h
      obtain ⟨rs, he, hl, hv⟩ := ih (by omega)
      refine ⟨maxDigit :: rs, by simp [decreaseCopy, he], by simp [hl], ?_⟩
      simp only [val_cons, toNat_maxDigit, BitVec.toNat_zero]
      omega
    · have h1 := toNat_pos hd
      have h2 : (d - 1#32).toNat = d.toNat - 1 := by bv_omega
      refine ⟨(d - 1#32) :: ds, by simp [decreaseCopy, hd], by simp, ?_⟩
      simp only [val_cons, h2]; omega

theorem ecmaBigUintDecrease_eq {value : List Digit} (hn : Trimmed value) (h1 : 1 < val value)
    (hs : 4 * value.length ≤ maxSize) :
    ∃ ds, Trimmed ds ∧ ds ≠ [] ∧ val ds + 1 = val value ∧ ecmaBigUintDecrease value = boxed ds := by
  have hne : value ≠ [] := by rintro rfl; simp at h1
  obtain ⟨as, d, rfl, hd⟩ := hn.exists_concat hne
  have hassert : 4 < 4 * (as ++ [d]).length ∨ 1#32 < (as ++ [d]).headD 0#32 := by
    cases as with
    | nil => right; simp at h1 ⊢; simpa [BitVec.lt_def] using h1
    | cons a as => left; simp
  have hvpos : (2 ^ 32) ^ ((as ++ [d]).length - 1) ≤ val (as ++ [d]) := hn.pow_le_val hne
  simp only [List.length_append, List.length_singleton, Nat.add_sub_cancel] at hvpos
  by_cases hpow : (as ++ [d]).head? = some 0#32 ∧ (as ++ [d]).getLast? = some 1#32 ∧
      (as ++ [d]).dropLast.all (· == 0#32)
  · obtain ⟨hh, hlast, hall⟩ := hpow
    have hd1 : d = 1#32 := by simpa using hlast
    subst hd1
    have has : as = List.replicate as.length 0#32 := by
      refine List.eq_replicate_of_mem fun x hx => ?_
      simpa using List.all_eq_true.mp hall x (by simpa using hx)
    have hnil : as ≠ [] := by rintro rfl; simp at h1
    refine ⟨List.replicate as.length maxDigit, ?_, by simpa using hnil, ?_, ?_⟩
    · rw [Trimmed, List.getLast?_replicate, if_neg (by simpa using hnil)]; decide
    · rw [val_concat, has, val_replicate_zero]
      simp only [List.length_replicate]
      rw [show val (List.replicate as.length maxDigit) + 1 = (2 ^ 32) ^ as.length from
        val_replicate_ones as.length]
      simp
    · rw [ecmaBigUintDecrease, assertDigits_ok hn hne, ok_bind, jjsAssert_ok hassert, ok_bind, if_pos ⟨hh, hlast, hall⟩]
      simp only [List.length_append, List.length_singleton, Nat.add_sub_cancel] at hs ⊢
      rw [show 4 * (as.length + 1) - 4 = 4 * as.length by omega,
        ecmaBigintCreate_ok (List.length_pos_iff.mpr hnil) (by omega), ok_bind,
        boxed_ok (by simp; omega)]
  · obtain ⟨rs, he, hl, hv⟩ := decreaseCopy_ok (show 0 < val (as ++ [d]) by omega)
    have hgt : (2 ^ 32) ^ as.length < val (as ++ [d]) := by
      rcases Nat.lt_or_eq_of_le hvpos with h | h
      · exact h
      · -- the value is the power itself, so the first branch would have been taken
        exfalso
        rw [val_concat] at h
        have hd' := toNat_pos hd
        have hpos : 0 < (2 ^ 32) ^ as.length := Nat.pow_pos (by decide)
        have hmul := Nat.mul_le_mul_left ((2 ^ 32) ^ as.length) (show 1 ≤ d.toNat from hd')
        have hv0 : val as = 0 := by omega
        have hd1 : d = 1#32 := by
          rw [hv0, Nat.zero_add] at h
          exact BitVec.eq_of_toNat_eq (Nat.eq_of_mul_eq_mul_left hpos (by rw [← h]; simp))
        have hzero : as = List.replicate as.length 0#32 :=
          eq_of_val_eq (by simp) (by rw [hv0, val_replicate_zero])
        have hnil : as ≠ [] := by rintro rfl; subst hd1; simp at h1
        refine hpow ⟨?_, by simp [hd1], ?_⟩
        · cases as with
          | nil => exact absurd rfl hnil
          | cons a as => simp [List.replicate_succ] at hzero; simp [hzero.1]
        · rw [List.dropLast_concat, List.all_eq_true]
          intro x hx
          rw [hzero] at hx
          simpa using List.eq_of_mem_replicate hx
    refine ⟨rs, trimmed_of_pow_le ?_, ?_, hv, ?_⟩
    · rw [hl, List.length_append, List.length_singleton, Nat.add_sub_cancel]; omega
    · rintro rfl; simp at hl
    · rw [ecmaBigUintDecrease, assertDigits_ok hn hne, ok_bind, jjsAssert_ok hassert, ok_bind, if_neg hpow,
        ecmaBigintCreate_ok (List.length_pos_iff.mpr hne) hs, ok_bind, he, boxed_ok (by omega)]

/-! ## Add -/

/-- One digit of an addition: the carry goes into the left digit first. -/
def addStep (left right carry : Digit) : Res (Digit × Digit) :=
  let lc := if carry = 0#32 ∨ left ≠ maxDigit then (left + carry, 0#32) else (0#32, 1#32)
  let left := lc.1 + right
  if left < right then do
    jjsAssert (lc.2 = 0#32)
    .ok (left, 1#32)
  else .ok (left, lc.2)

/-- The carry loop over the digits that both values have. -/
def addDigits : List Digit → List Digit → Digit → Res (List Digit × Digit)
  | l :: ls, r :: rs, carry => do
    let s ← addStep l r carry
    let t ← addDigits ls rs s.2
    .ok (s.1 :: t.1, t.2)
  | _, _, carry => .ok ([], carry)

/-- The carry loop over the remaining digits of the longer value; the flag tells that the carry
leaves the last digit. -/
def addCarry : List Digit → Digit → List Digit × Bool
  | ds, carry => if carry = 0#32 then (ds, false) else increaseDigits ds

/-- Swap the values if the right one is longer. -/
def longerFirst (left right : List Digit) : List Digit × List Digit :=
  if left.length < right.length then (right, left) else (left, right)

theorem longerFirst_length (left right : List Digit) :
    (longerFirst left right).2.length ≤ (longerFirst left right).1.length := by
  unfold longerFirst
  split
  · exact Nat.le_of_lt ‹_›
  · exact Nat.le_of_not_lt ‹_›

theorem longerFirst_cases (left right : List Digit) :
    longerFirst left right = (right, left) ∨ longerFirst left right = (left, right) := by
  unfold longerFirst
  split
  · exact Or.inl rfl
  · exact Or.inr rfl

/-- `ecma_big_uint_add`. -/
def ecmaBigUintAdd (left right : List Digit) : Res (List Digit) := do
  assertDigits left
  assertDigits right
  let lr := longerFirst left right
  ecmaBigintCreate (4 * lr.1.length)
  let s ← addDigits lr.1 lr.2 0#32
  match addCarry (lr.1.drop lr.2.length) s.2 with
  | (ds, true) => ecmaBigUintExtend (s.1 ++ ds) 1#32
  | (ds, false) => .ok (s.1 ++ ds)

theorem addStep_ok (left right : Digit) {carry : Digit} (hc : carry.toNat ≤ 1) :
    ∃ d c, addStep left right carry = .ok (d, c) ∧ c.toNat ≤ 1 ∧
      d.toNat + 2 ^ 32 * c.toNat = left.toNat + right.toNat + carry.toNat := by
  have hl := left.isLt
  have hr := right.isLt
  by_cases h : carry = 0#32 ∨ left ≠ maxDigit
  · have hsum : left.toNat + carry.toNat < 2 ^ 32 := by
      rcases h with rfl | h
      · simpa using hl
      · have := toNat_lt_of_ne_maxDigit h; omega
    simp only [addStep, if_pos h]
    by_cases hov : left + carry + right < right
    · refine ⟨_, 1#32, by rw [if_pos hov, jjsAssert_ok trivial, ok_bind], by decide, ?_⟩
      bv_omega
    · refine ⟨_, 0#32, by rw [if_neg hov], by decide, ?_⟩
      bv_omega
  · have h' : carry ≠ 0#32 ∧ left = maxDigit := by simpa using h
    have h1 := toNat_pos h'.1
    refine ⟨right, 1#32, ?_, by decide, ?_⟩
    · simp only [addStep, if_neg h, BitVec.zero_add]
      rw [if_neg (by simp)]
    · rw [h'.2]; simp; omega

theorem addDigits_ok (ls rs : List Digit) (hl : rs.length ≤ ls.length) {carry : Digit}
    (hc : carry.toNat ≤ 1) :
    ∃ ds c, addDigits ls rs carry = .ok (ds, c) ∧ c.toNat ≤ 1 ∧ ds.length = rs.length ∧
      val ds + (2 ^ 32) ^ rs.length * (val (ls.drop rs.length) + c.toNat) =
        val ls + val rs + carry.toNat := by
  induction rs generalizing ls carry with
  | nil => exact ⟨[], carry, by cases ls <;> rfl, hc, rfl, by simp⟩
  | cons r rs ih =>
    cases ls with
    | nil => simp at hl
    | cons l ls =>
      obtain ⟨d, c, hs, hc', hv⟩ := addStep_ok l r hc
      obtain ⟨ds, c', ht, hc'', hlen, hv'⟩ := ih ls (by simpa using hl) hc'
      refine ⟨d :: ds, c', by simp [addDigits, hs, ht], hc'', by simp [hlen], ?_⟩
      simp only [val_cons, List.length_cons, List.drop_succ_cons, weight_succ, Nat.mul_assoc]
      generalize (2 ^ 32) ^ rs.length * (val (ls.drop rs.length) + c'.toNat) = x at hv' ⊢
      omega

theorem ecmaBigUintAdd_eq {left right : List Digit} (hl : Trimmed left) (hr : Trimmed right)
    (hlne : left ≠ []) (hrne : right ≠ []) (hls : 4 * left.length ≤ maxSize)
    (hrs : 4 * right.length ≤ maxSize) :
    ∃ ds, Trimmed ds ∧ ds ≠ [] ∧ val ds = val left + val right ∧
      ecmaBigUintAdd left right = boxed ds := by
  obtain ⟨a, b, hab, hA, hane, hsum, hsz⟩ : ∃ a b, longerFirst left right = (a, b) ∧ Trimmed a ∧ a ≠ [] ∧
      val a + val b = val left + val right ∧ 4 * a.length ≤ maxSize := by
    rcases longerFirst_cases left right with h | h
    · exact ⟨right, left, h, hr, hrne, Nat.add_comm _ _, hrs⟩
    · exact ⟨left, right, h, hl, hlne, rfl, hls⟩
  have hlen : b.length ≤ a.length := by simpa [hab] using longerFirst_length left right
  obtain ⟨ds, c, he, hc, hdl, hv⟩ := addDigits_ok a b hlen (show (0#32).toNat ≤ 1 by decide)
  have hEq : ecmaBigUintAdd left right = (match addCarry (a.drop b.length) c with
      | (rs, true) => ecmaBigUintExtend (ds ++ rs) 1#32
      | (rs, false) => .ok (ds ++ rs)) := by
    simp only [ecmaBigUintAdd, assertDigits_ok hl hlne, assertDigits_ok hr hrne, hab,
      ecmaBigintCreate_ok (List.length_pos_iff.mpr hane) hsz, ok_bind, he]
  have hav := hA.pow_le_val hane
  rw [hEq]
  simp only [BitVec.toNat_zero, Nat.add_zero] at hv
  by_cases h0 : c = 0#32
  · subst h0
    simp only [addCarry, if_true, BitVec.toNat_zero, Nat.add_zero] at hv ⊢
    have hval : val (ds ++ a.drop b.length) = val left + val right := by
      rw [val_append, hdl, hv, hsum]
    have hll : (ds ++ a.drop b.length).length = a.length := by simp [hdl]; omega
    refine ⟨_, trimmed_of_pow_le (by rw [hll]; omega), ?_, hval, by rw [boxed_ok (by omega)]⟩
    · intro h
      rw [h] at hll
      exact hane (List.length_eq_zero_iff.mp hll.symm)
  · have hc1 : c.toNat = 1 := by have := toNat_pos h0; omega
    have hil := increaseDigits_length (a.drop b.length)
    have hiv := increaseDigits_val (a.drop b.length)
    simp only [addCarry, if_neg h0]
    cases hb : increaseDigits (a.drop b.length) with
    | mk rs full =>
      rw [hb] at hil hiv
      have hll : (ds ++ rs).length = a.length := by
        simp only [List.length_append, hdl, hil, List.length_drop]; omega
      cases full with
      | true =>
        refine ⟨ds ++ rs ++ [1#32], trimmed_concat.mpr (by decide), by simp, ?_,
          ecmaBigUintExtend_eq 1#32 (by omega)⟩
        simp only [if_true] at hiv
        rw [val_concat, val_append, List.length_append, hdl, hil, pow_add]
        rw [hc1] at hv
        rw [← hsum, ← hv, ← hiv]
        simp only [BitVec.toNat_ofNat]
        ring_nf
      | false =>
        simp only [Bool.false_eq_true, if_false, Nat.add_zero] at hiv
        have hval : val (ds ++ rs) = val left + val right := by
          rw [val_append, hdl, hiv, ← hsum, ← hv, hc1]
        refine ⟨ds ++ rs, trimmed_of_pow_le (by rw [hll]; omega), ?_, hval, by rw [boxed_ok (by omega)]⟩
        · intro h
          rw [h] at hll
          exact hane (List.length_eq_zero_iff.mp hll.symm)

/-! ## Subtract -/

/-- One digit of a subtraction: the borrow is taken from the left digit first. -/
def subStep (left right carry : Digit) : Digit × Digit :=
  if carry = 0#32 ∨ left ≠ 0#32 then
    let left := left - carry
    (left - right, if left < right then 1#32 else 0#32)
  else (maxDigit - right, 1#32)

/-- The borrow loop over the digits that both values have. -/
def subDigits : List Digit → List Digit → Digit → List Digit × Digit
  | l :: ls, r :: rs, carry =>
    let s := subStep l r carry
    let t := subDigits ls rs s.2
    (s.1 :: t.1, t.2)
  | _, _, carry => ([], carry)

/-- The borrow loop over the remaining left digits: the digits written, and those not reached.
The null case is the assertion `current_p < end_p`. -/
def subBorrow : List Digit → Res (List Digit × List Digit)
  | [] => .error .assertion
  | value :: ls =>
    if value ≠ 0#32 then .ok ([value - 1#32], ls)
    else do
      let t ← subBorrow ls
      .ok (maxDigit :: t.1, t.2)

/-- The digits above the right value, after the borrow. -/
def subRest (carry : Digit) (rest : List Digit) : Res (List Digit × List Digit) :=
  if carry ≠ 0#32 then subBorrow rest else .ok ([], rest)

/-- `ecma_big_uint_sub`. -/
def ecmaBigUintSub (left right : List Digit) : Res (List Digit) := do
  assertDigits left
  assertDigits right
  jjsAssert (right.length ≤ left.length)
  ecmaBigintCreate (4 * left.length)
  let s := subDigits left right 0#32
  let rest := left.drop right.length
  let t ← subRest s.2 rest
  let written := s.1 ++ t.1
  if t.2 ≠ [] then .ok (written ++ t.2) else normalizeIfZero written

theorem subStep_val (left right : Digit) {carry : Digit} (hc : carry.toNat ≤ 1) :
    (subStep left right carry).2.toNat ≤ 1 ∧
      left.toNat + 2 ^ 32 * (subStep left right carry).2.toNat =
        (subStep left right carry).1.toNat + right.toNat + carry.toNat := by
  have hl := left.isLt
  have hr := right.isLt
  unfold subStep
  by_cases h : carry = 0#32 ∨ left ≠ 0#32
  · have hsub : (left - carry).toNat = left.toNat - carry.toNat ∧ carry.toNat ≤ left.toNat := by
      rcases h with rfl | h
      · simp
      · have := toNat_pos h
        exact ⟨by bv_omega, by omega⟩
    rw [if_pos h]
    simp only []
    split
    · rename_i hlt
      refine ⟨by decide, ?_⟩
      bv_omega
    · rename_i hlt
      refine ⟨by decide, ?_⟩
      bv_omega
  · have h' : carry ≠ 0#32 ∧ left = 0#32 := by simpa using h
    have h1 := toNat_pos h'.1
    have h2 : (maxDigit - right).toNat = 2 ^ 32 - 1 - right.toNat := by
      have := toNat_maxDigit
      bv_omega
    rw [if_neg h, h'.2]
    refine ⟨by simp, ?_⟩
    simp only [h2, BitVec.toNat_ofNat]
    omega

theorem subDigits_val (ls rs : List Digit) (hl : rs.length ≤ ls.length) {carry : Digit}
    (hc : carry.toNat ≤ 1) :
    (subDigits ls rs carry).2.toNat ≤ 1 ∧ (subDigits ls rs carry).1.length = rs.length ∧
      val ls + (2 ^ 32) ^ rs.length * (subDigits ls rs carry).2.toNat =
        val (subDigits ls rs carry).1 + val rs + carry.toNat +
          (2 ^ 32) ^ rs.length * val (ls.drop rs.length) := by
  induction rs generalizing ls carry with
  | nil => cases ls <;> exact ⟨hc, rfl, by simp only [subDigits, List.length_nil, Nat.pow_zero, Nat.one_mul, val_nil, List.drop_zero]; omega⟩
  | cons r rs ih =>
    cases ls with
    | nil => simp at hl
    | cons l ls =>
      obtain ⟨hc', hv⟩ := subStep_val l r hc
      obtain ⟨hc'', hlen, hv'⟩ := ih ls (by simpa using hl) hc'
      refine ⟨hc'', by simp [subDigits, hlen], ?_⟩
      simp only [subDigits, val_cons, List.length_cons, List.drop_succ_cons, weight_succ, Nat.mul_assoc]
      generalize (2 ^ 32) ^ rs.length * val (ls.drop rs.length) = x at hv' ⊢
      generalize (2 ^ 32) ^ rs.length * (subDigits ls rs _).2.toNat = y at hv' ⊢
      omega

theorem subBorrow_ok {ls : List Digit} (h : 0 < val ls) :
    ∃ ws rest, subBorrow ls = .ok (ws, rest) ∧ rest <:+ ls ∧ (ws ++ rest).length = ls.length ∧
      val (ws ++ rest) + 1 = val ls := by
  induction ls with
  | nil => simp at h
  | cons v ls ih =>
    by_cases hv : v = 0#32
    · subst hv
      simp only [val_cons, BitVec.toNat_zero] at h
      obtain ⟨ws, rest, he, hs, hl, hval⟩ := ih (by omega)
      refine ⟨maxDigit :: ws, rest, by simp [subBorrow, he], hs.trans (List.suffix_cons _ _), ?_, ?_⟩
      · simpa using hl
      · simp only [List.cons_append, val_cons, toNat_maxDigit, BitVec.toNat_zero]
        omega
    · have h1 := toNat_pos hv
      have h2 : (v - 1#32).toNat = v.toNat - 1 := by bv_omega
      refine ⟨[v - 1#32], ls, by simp [subBorrow, hv], List.suffix_cons _ _, by simp, ?_⟩
      simp only [List.singleton_append, val_cons, h2]
      omega

/-- A value with the top digits of x if `left` is. -/
theorem trimmed_of_suffix {left written rest : List Digit} (hn : Trimmed left) (hs : rest <:+ left)
    (hne : rest ≠ []) : Trimmed (written ++ rest) := by
  obtain ⟨pre, rfl⟩ := hs
  exact (Trimmed.of_append pre hne hn).append_left written hne

theorem ecmaBigUintSub_eq {left right : List Digit} (hl : Trimmed left) (hr : Trimmed right)
    (hrne : right ≠ []) (hlt : val right < val left) (hls : 4 * left.length ≤ maxSize) :
    ∃ ds, Trimmed ds ∧ ds ≠ [] ∧ val ds + val right = val left ∧
      ecmaBigUintSub left right = boxed ds := by
  have hlne : left ≠ [] := by rintro rfl; simp at hlt
  have hlen : right.length ≤ left.length := by
    rw [hr.length_le_iff (by decide)]
    exact Nat.lt_trans hlt (val_lt left)
  obtain ⟨hc, hdl, hv⟩ := subDigits_val left right hlen (show (0#32).toNat ≤ 1 by decide)
  rw [BitVec.toNat_zero, Nat.add_zero] at hv
  -- what the borrow loop leaves, whether it runs or not
  obtain ⟨ws, rest, he, hs, htl, htv⟩ : ∃ ws rest,
      subRest (subDigits left right 0#32).2 (left.drop right.length) = .ok (ws, rest) ∧ rest <:+ left ∧
      (ws ++ rest).length = left.length - right.length ∧
      val (ws ++ rest) + (subDigits left right 0#32).2.toNat = val (left.drop right.length) := by
    by_cases h0 : (subDigits left right 0#32).2 = 0#32
    · refine ⟨[], left.drop right.length, by rw [subRest, if_neg (by simpa using h0)], List.drop_suffix _ _, ?_, ?_⟩
      · simp
      · simp [h0]
    · have hc1 : (subDigits left right 0#32).2.toNat = 1 := by have := toNat_pos h0; omega
      have hpos : 0 < val (left.drop right.length) := by
        by_contra hz
        have hz' : val (left.drop right.length) = 0 := by omega
        have hd := val_lt (subDigits left right 0#32).1
        rw [hz', hc1, Nat.mul_zero, Nat.mul_one] at hv
        rw [hdl] at hd
        omega
      obtain ⟨ws, rest, he, hs, htl, htv⟩ := subBorrow_ok hpos
      refine ⟨ws, rest, by rw [subRest, if_pos h0, he], hs.trans (List.drop_suffix _ _), by simpa using htl, ?_⟩
      rw [hc1, htv]
  have hval : val ((subDigits left right 0#32).1 ++ ws ++ rest) + val right = val left := by
    rw [List.append_assoc, val_append, hdl]
    rw [← htv, Nat.mul_add] at hv
    omega
  have hall : ((subDigits left right 0#32).1 ++ ws ++ rest).length = left.length := by
    rw [List.append_assoc, List.length_append, hdl, htl]
    omega
  have hEq : ecmaBigUintSub left right =
      if rest ≠ [] then .ok ((subDigits left right 0#32).1 ++ ws ++ rest)
      else normalizeIfZero ((subDigits left right 0#32).1 ++ ws) := by
    simp only [ecmaBigUintSub, assertDigits_ok hl hlne, assertDigits_ok hr hrne, jjsAssert_ok hlen,
      ecmaBigintCreate_ok (List.length_pos_iff.mpr hlne) hls, ok_bind, he]
  rw [hEq]
  by_cases hrest : rest = []
  · subst hrest
    rw [List.append_nil] at hval hall
    have hle := trim_length_le ((subDigits left right 0#32).1 ++ ws)
    refine ⟨trim ((subDigits left right 0#32).1 ++ ws), trimmed_trim _, ?_, by rw [val_trim, hval], ?_⟩
    · intro h
      have := val_trim ((subDigits left right 0#32).1 ++ ws)
      rw [h, val_nil] at this
      omega
    · rw [if_neg (by simp), normalizeIfZero_ok (by omega), boxed_ok (by omega)]
  · refine ⟨_, trimmed_of_suffix hl hs hrest, by simp [hrest], hval, ?_⟩
    rw [if_pos hrest, boxed_ok (by omega)]

/-! ## Multiply -/

/-- One digit of a row: add `left * right` and the carry to the digit already there. -/
def mulStep (left right value carry : Digit) : Res (Digit × Digit) := do
  let multiplyResult : TwoDigits := left.setWidth 64 * right.setWidth 64
  let low : Digit := multiplyResult.setWidth 32
  let newCarry : Digit := (multiplyResult >>> 32).setWidth 32
  let value := value + low
  let newCarry ← carryInto value low newCarry
  let value := value + carry
  let newCarry ← carryInto value carry newCarry
  .ok (value, newCarry)
where
  /-- Count an addition that wrapped around; the assertion says that the count cannot. -/
  carryInto (value addend newCarry : Digit) : Res Digit :=
    if value < addend then do
      jjsAssert (newCarry < maxDigit)
      .ok (newCarry + 1#32)
    else .ok newCarry

/-- The carry loop after a row. The null case is the end of `extra_space`. -/
def mulCarry : List Digit → Digit → Res (List Digit)
  | [], carry => if carry = 0#32 then .ok [] else .error .assertion
  | value :: dest, carry =>
    if carry = 0#32 then .ok (value :: dest)
    else do
      let value := value + carry
      let rest ← mulCarry dest (if value < carry then 1#32 else 0#32)
      .ok (value :: rest)

/-- One row of the schoolbook product, added to the digits from `destination_p` on. -/
def mulRow (right : Digit) : List Digit → List Digit → Digit → Res (List Digit)
  | [], dest, carry => mulCarry dest carry
  | _ :: _, [], _ => .error .assertion
  | left :: ls, value :: dest, carry => do
    let s ← mulStep left right value carry
    let rest ← mulRow right ls dest s.2
    .ok (s.1 :: rest)

/-- A zero digit of the right value has no row. -/
def mulRowUnlessZero (right : Digit) (left dest : List Digit) : Res (List Digit) :=
  if right = 0#32 then .ok dest else mulRow right left dest 0#32

/-- The rows, each one digit further. The destination is the block followed by `extra_space`. -/
def mulRows (left : List Digit) : List Digit → List Digit → Res (List Digit)
  | [], dest => .ok dest
  | right :: rs, dest => do
    let dest ← mulRowUnlessZero right left dest
    match dest with
    | [] => .error .assertion
    | value :: dest => do
      let rest ← mulRows left rs dest
      .ok (value :: rest)

/-- `ecma_big_uint_mul`. -/
def ecmaBigUintMul (left right : List Digit) : Res (List Digit) := do
  assertDigits left
  assertDigits right
  let lr := longerFirst left right
  let resultLength := lr.1.length + lr.2.length - 1
  ecmaBigintCreate (4 * resultLength)
  let dest ← mulRows lr.1 lr.2 (List.replicate (resultLength + 1) 0#32)
  let extraSpace := dest.getLastD 0#32
  if extraSpace = 0#32 then .ok dest.dropLast else ecmaBigUintExtend dest.dropLast extraSpace

theorem toNat_setWidth_digit (d : Digit) : (d.setWidth 64 : TwoDigits).toNat = d.toNat := by
  rw [BitVec.toNat_setWidth]
  exact Nat.mod_eq_of_lt (Nat.lt_trans d.isLt (by decide))

/-- The product of two digits fits in two digits. -/
theorem toNat_digit_mul (a b : Digit) :
    (a.setWidth 64 * b.setWidth 64 : TwoDigits).toNat = a.toNat * b.toNat := by
  have ha := a.isLt
  have hb := b.isLt
  have hprod : a.toNat * b.toNat ≤ (2 ^ 32 - 1) * (2 ^ 32 - 1) := Nat.mul_le_mul (by omega) (by omega)
  rw [BitVec.toNat_mul, BitVec.toNat_setWidth, BitVec.toNat_setWidth,
    Nat.mod_eq_of_lt (by omega : a.toNat < 2 ^ 64), Nat.mod_eq_of_lt (by omega : b.toNat < 2 ^ 64),
    Nat.mod_eq_of_lt (by omega)]

theorem mulStep_ok (left right value carry : Digit) :
    ∃ d c, mulStep left right value carry = .ok (d, c) ∧
      d.toNat + 2 ^ 32 * c.toNat = value.toNat + left.toNat * right.toNat + carry.toNat := by
  have hl := left.isLt
  have hr := right.isLt
  have hv := value.isLt
  have hc := carry.isLt
  have hprod : left.toNat * right.toNat ≤ (2 ^ 32 - 1) * (2 ^ 32 - 1) :=
    Nat.mul_le_mul (by omega) (by omega)
  have hm := toNat_digit_mul left right
  unfold mulStep
  generalize (left.setWidth 64 * right.setWidth 64 : TwoDigits) = m at hm ⊢
  have hlow : (m.setWidth 32).toNat = m.toNat % 2 ^ 32 := BitVec.toNat_setWidth 32 m
  have hhigh : ((m >>> 32).setWidth 32).toNat = m.toNat / 2 ^ 32 := by
    rw [BitVec.toNat_setWidth, BitVec.toNat_ushiftRight, Nat.shiftRight_eq_div_pow]
    omega
  simp only []
  generalize m.setWidth 32 = low at hlow ⊢
  generalize (m >>> 32).setWidth 32 = high at hhigh ⊢
  rw [← hm] at hprod ⊢
  -- each of the two additions carries at most once, and the product leaves room for both
  have hsplit : m.toNat = low.toNat + 2 ^ 32 * high.toNat := by omega
  have hcarry : ∀ (v a c : Digit), (v + a < a → c.toNat < 2 ^ 32 - 1) →
      ∃ c', mulStep.carryInto (v + a) a c = .ok c' ∧
        (v + a).toNat + 2 ^ 32 * c'.toNat = v.toNat + a.toNat + 2 ^ 32 * c.toNat := by
    intro v a c h
    unfold mulStep.carryInto
    by_cases hov : v + a < a
    · have := h hov
      refine ⟨c + 1#32, ?_, ?_⟩
      · rw [if_pos hov, jjsAssert_ok (by rw [BitVec.lt_def, toNat_maxDigit]; exact this), ok_bind]
      · bv_omega
    · exact ⟨c, by rw [if_neg hov], by bv_omega⟩
  obtain ⟨c1, he1, hv1⟩ := hcarry value low high (by
    intro hov
    omega)
  obtain ⟨c2, he2, hv2⟩ := hcarry (value + low) carry c1 (by
    intro hov
    have : 2 ^ 32 ≤ (value + low).toNat + carry.toNat := by bv_omega
    omega)
  exact ⟨_, c2, by rw [he1, ok_bind, he2, ok_bind], by omega⟩

theorem mulCarry_ok (dest : List Digit) (carry : Digit)
    (h : val dest + carry.toNat < (2 ^ 32) ^ dest.length) :
    ∃ ds, mulCarry dest carry = .ok ds ∧ ds.length = dest.length ∧ val ds = val dest + carry.toNat := by
  induction dest generalizing carry with
  | nil =>
    have h0 : carry = 0#32 := BitVec.eq_of_toNat_eq (by simpa using h)
    subst h0
    exact ⟨[], rfl, rfl, rfl⟩
  | cons value dest ih =>
    by_cases h0 : carry = 0#32
    · subst h0
      exact ⟨value :: dest, by simp [mulCarry], rfl, by simp⟩
    · have hlt := value.isLt
      have hc := carry.isLt
      have hstep : (value + carry).toNat +
          2 ^ 32 * (if value + carry < carry then 1#32 else 0#32 : Digit).toNat =
            value.toNat + carry.toNat := by
        split <;> bv_omega
      generalize hcc : (if value + carry < carry then 1#32 else 0#32 : Digit) = c at hstep
      simp only [val_cons, List.length_cons, weight_succ] at h
      obtain ⟨ds, he, hl, hv⟩ := ih c (by
        generalize (2 ^ 32) ^ dest.length = p at h ⊢
        omega)
      refine ⟨(value + carry) :: ds, by simp [mulCarry, h0, hcc, he], by simp [hl], ?_⟩
      simp only [val_cons, hv]
      omega

theorem mulRow_ok (right : Digit) (ls dest : List Digit) (carry : Digit) (hl : ls.length ≤ dest.length)
    (h : val dest + val ls * right.toNat + carry.toNat < (2 ^ 32) ^ dest.length) :
    ∃ ds, mulRow right ls dest carry = .ok ds ∧ ds.length = dest.length ∧
      val ds = val dest + val ls * right.toNat + carry.toNat := by
  induction ls generalizing dest carry with
  | nil =>
    simp only [val_nil, Nat.zero_mul, Nat.add_zero] at h ⊢
    exact mulCarry_ok dest carry h
  | cons left ls ih =>
    cases dest with
    | nil => simp at hl
    | cons value dest =>
      obtain ⟨d, c, hs, hv⟩ := mulStep_ok left right value carry
      simp only [val_cons, List.length_cons, weight_succ, Nat.add_mul, Nat.mul_assoc] at h ⊢
      obtain ⟨ds, he, hlen, hv'⟩ := ih dest c (by simpa using hl) (by
        generalize (2 ^ 32) ^ dest.length = p at h ⊢
        generalize val ls * right.toNat = x at h ⊢
        generalize left.toNat * right.toNat = y at h hv
        omega)
      refine ⟨d :: ds, by simp [mulRow, hs, he], by simp [hlen], ?_⟩
      rw [val_cons, hv']
      generalize val ls * right.toNat = x
      generalize left.toNat * right.toNat = y at hv ⊢
      omega

theorem mulRowUnlessZero_ok (right : Digit) (left dest : List Digit) (hl : left.length ≤ dest.length)
    (h : val dest + val left * right.toNat < (2 ^ 32) ^ dest.length) :
    ∃ ds, mulRowUnlessZero right left dest = .ok ds ∧ ds.length = dest.length ∧
      val ds = val dest + val left * right.toNat := by
  unfold mulRowUnlessZero
  split
  · rename_i h0
    subst h0
    exact ⟨dest, rfl, rfl, by simp⟩
  · exact mulRow_ok right left dest 0#32 hl h

theorem mulRows_ok (left rs dest : List Digit) (hl : left.length + rs.length ≤ dest.length)
    (h : val dest + val left * val rs < (2 ^ 32) ^ dest.length) :
    ∃ ds, mulRows left rs dest = .ok ds ∧ ds.length = dest.length ∧
      val ds = val dest + val left * val rs := by
  induction rs generalizing dest with
  | nil => exact ⟨dest, rfl, rfl, by simp⟩
  | cons right rs ih =>
    rw [List.length_cons] at hl
    have hexp : val left * val (right :: rs) = val left * right.toNat + 2 ^ 32 * (val left * val rs) := by
      rw [val_cons, Nat.mul_add]; ring
    rw [hexp] at h ⊢
    obtain ⟨ds, he, hlen, hv⟩ := mulRowUnlessZero_ok right left dest (by omega) (by omega)
    cases ds with
    | nil => simp only [List.length_nil] at hlen; omega
    | cons d ds =>
      rw [← hlen] at h hl
      simp only [List.length_cons] at hl
      simp only [val_cons, List.length_cons, weight_succ] at hv h
      obtain ⟨es, he', hlen', hv'⟩ := ih ds (by omega) (by
        have := d.isLt
        generalize (2 ^ 32) ^ ds.length = p at h ⊢
        omega)
      refine ⟨d :: es, ?_, by rw [List.length_cons, hlen', ← hlen, List.length_cons], ?_⟩
      · simp [mulRows, he, he']
      · rw [val_cons, hv']
        omega

theorem ecmaBigUintMul_eq {left right : List Digit} (hl : Trimmed left) (hr : Trimmed right)
    (hlne : left ≠ []) (hrne : right ≠ []) :
    ∃ ds, Trimmed ds ∧ ds ≠ [] ∧ val ds = val left * val right ∧
      ecmaBigUintMul left right = boxed ds := by
  obtain ⟨a, b, hab, ha, hb, hane, hbne, hprod⟩ : ∃ a b, longerFirst left right = (a, b) ∧
      Trimmed a ∧ Trimmed b ∧ a ≠ [] ∧ b ≠ [] ∧ val a * val b = val left * val right := by
    rcases longerFirst_cases left right with h | h
    · exact ⟨right, left, h, hr, hl, hrne, hlne, Nat.mul_comm _ _⟩
    · exact ⟨left, right, h, hl, hr, hlne, hrne, rfl⟩
  have hal := List.length_pos_iff.mpr hane
  have hbl := List.length_pos_iff.mpr hbne
  obtain ⟨n, hn⟩ : ∃ n, a.length + b.length = n + 2 := ⟨a.length + b.length - 2, by omega⟩
  have hnl : a.length + b.length - 1 = n + 1 := by omega
  have hlt : val a * val b < (2 ^ 32) ^ (n + 2) := by
    rw [← hn, pow_add]
    exact Nat.mul_lt_mul'' (val_lt a) (val_lt b)
  have hge : (2 ^ 32) ^ n ≤ val a * val b := by
    rw [show n = (a.length - 1) + (b.length - 1) by omega, pow_add]
    exact Nat.mul_le_mul (ha.pow_le_val hane) (hb.pow_le_val hbne)
  obtain ⟨dest, he, hlen, hv⟩ := mulRows_ok a b (List.replicate (n + 2) 0#32) (by simp; omega)
    (by rw [val_replicate_zero, List.length_replicate, Nat.zero_add]; exact hlt)
  rw [val_replicate_zero, Nat.zero_add, hprod] at hv
  rw [hprod] at hge
  rw [List.length_replicate] at hlen
  obtain ⟨ds, extra, rfl⟩ : ∃ ds extra, dest = ds ++ [extra] := by
    rcases List.eq_nil_or_concat dest with rfl | ⟨ds, extra, rfl⟩
    · simp at hlen
    · exact ⟨ds, extra, by simp⟩
  have hdl : ds.length = n + 1 := by simpa using hlen
  have hEq : ecmaBigUintMul left right = (do
      ecmaBigintCreate (4 * (n + 1))
      if extra = 0#32 then .ok ds else ecmaBigUintExtend ds extra) := by
    simp only [ecmaBigUintMul, assertDigits_ok hl hlne, assertDigits_ok hr hrne, hab, hnl, he, ok_bind,
      List.getLastD_concat, List.dropLast_concat]
  rw [hEq]
  by_cases hfit : 4 * (n + 1) ≤ maxSize
  · rw [ecmaBigintCreate_ok (by omega) hfit, ok_bind]
    by_cases h0 : extra = 0#32
    · subst h0
      have hval : val ds = val left * val right := by simpa [val_concat] using hv
      refine ⟨ds, trimmed_of_pow_le ?_, ?_, hval, ?_⟩
      · rw [hdl, hval]
        exact hge
      · rintro rfl; simp at hdl
      · rw [if_pos rfl, boxed_ok (by omega)]
    · refine ⟨ds ++ [extra], trimmed_concat.mpr h0, by simp, hv, ?_⟩
      rw [if_neg h0, ecmaBigUintExtend_eq extra (by omega)]
  · -- the product has at least `n + 1` digits
    have hle := trim_length_le (ds ++ [extra])
    have htv := val_trim (ds ++ [extra])
    have hn1 : n < (trim (ds ++ [extra])).length := by
      by_contra hcon
      have := (trimmed_trim (ds ++ [extra])).length_le_iff (by decide) |>.mp (Nat.le_of_not_lt hcon)
      omega
    refine ⟨trim (ds ++ [extra]), trimmed_trim _, ?_, by rw [htv, hv], ?_⟩
    · intro h; rw [h] at hn1; simp at hn1
    · rw [ecmaBigintCreate_null (by omega), error_bind, boxed, if_pos (by omega)]

end BigInt
end JJS
