import JJS.Lib.Radix

/-!
# JJS.BigInt.Basic

The storage of BigInt values and the helper routines of `ecma-big-uint.c` that every operation
uses. A BigUInt block is the list of its 32-bit digits, least significant first, so its size in
bytes is `4 * length`. `ECMA_BIGINT_POINTER_TO_ZERO` is the empty list.

A routine that allocates returns the null pointer when the size is over `ECMA_BIGINT_MAX_SIZE`
(`Fail.null`; the allocator itself never fails here), which the callers turn into a range error.
`Fail.assertion` marks a failed `JJS_ASSERT` or an access outside a block. The others are the errors of
a division by zero, a negative power, a string that is no BigInt, and a number that is no integer.
`boxed ds` is what a routine with the exact result `ds` must return: `ds` itself when it fits, the null
pointer when it does not.
-/

namespace JJS
namespace BigInt

open Radix

abbrev Digit := BitVec 32
abbrev TwoDigits := BitVec 64

/-- `~((ecma_bigint_digit_t) 0)`. -/
def maxDigit : Digit := ~~~0#32

@[simp] theorem toNat_maxDigit : maxDigit.toNat = 2 ^ 32 - 1 := rfl

theorem toNat_lt_of_ne_maxDigit {d : Digit} (h : d ≠ maxDigit) : d.toNat < 2 ^ 32 - 1 := by
  have := d.isLt
  have : d.toNat ≠ 2 ^ 32 - 1 := fun he => h (BitVec.eq_of_toNat_eq he)
  omega

theorem toNat_pos {d : Digit} (h : d ≠ 0#32) : 0 < d.toNat := by
  have : d.toNat ≠ 0 := fun he => h (BitVec.eq_of_toNat_eq he)
  omega

theorem ne_zero_of_toNat {d : Digit} (h : 0 < d.toNat) : d ≠ 0#32 := by
  rintro rfl; simp at h

inductive Fail where
  | null
  | assertion
  | zeroDivision
  | negativeExponent
  | syntaxError
  | notInteger
  | infinityOrNan
  deriving DecidableEq, Repr

abbrev Res := Except Fail

/-- `ECMA_BIGINT_MAX_SIZE`. -/
def maxSize : Nat := 0x10000

def jjsAssert (c : Prop) [Decidable c] : Res Unit := if c then .ok () else .error .assertion

@[simp] theorem jjsAssert_ok {c : Prop} [Decidable c] (h : c) : jjsAssert c = .ok () := if_pos h

@[simp] theorem ok_bind {α β : Type} (a : α) (f : α → Res β) : (Except.ok a >>= f) = f a := rfl

@[simp] theorem error_bind {α β : Type} (e : Fail) (f : α → Res β) :
    ((Except.error e : Res α) >>= f) = .error e := rfl

/-- The checks of `ecma_bigint_create`; the digits are written by the caller. -/
def ecmaBigintCreate (size : Nat) : Res Unit := do
  jjsAssert (0 < size)
  jjsAssert (size % 4 = 0)
  if maxSize < size then .error .null else .ok ()

theorem ecmaBigintCreate_ok {n : Nat} (h0 : 0 < n) (h : 4 * n ≤ maxSize) : ecmaBigintCreate (4 * n) = .ok () := by
  rw [ecmaBigintCreate, jjsAssert_ok (by omega), ok_bind, jjsAssert_ok (by omega), ok_bind, if_neg (by omega)]

theorem ecmaBigintCreate_null {n : Nat} (h : maxSize < 4 * n) : ecmaBigintCreate (4 * n) = .error .null := by
  rw [ecmaBigintCreate, jjsAssert_ok (by omega), ok_bind, jjsAssert_ok (by omega), ok_bind, if_pos h]

/-- `JJS_ASSERT (size > 0 && ECMA_BIGINT_GET_LAST_DIGIT (value_p, size) != 0)`. -/
def assertDigits (value : List Digit) : Res Unit := jjsAssert (0 < value.length ∧ Trimmed value)

theorem assertDigits_ok {value : List Digit} (hn : Trimmed value) (hne : value ≠ []) :
    assertDigits value = .ok () :=
  jjsAssert_ok ⟨List.length_pos_iff.mpr hne, hn⟩

/-- The exact result `ds`, when a block can hold it. -/
def boxed (ds : List Digit) : Res (List Digit) := if maxSize < 4 * ds.length then .error .null else .ok ds

theorem boxed_ok {ds : List Digit} (h : 4 * ds.length ≤ maxSize) : boxed ds = .ok ds :=
  if_neg (by omega)

/-- Add a most significant digit. A block with an odd number of digits has room for one more. -/
def ecmaBigUintExtend (value : List Digit) (digit : Digit) : Res (List Digit) :=
  if value.length % 2 = 1 then .ok (value ++ [digit])
  else do
    ecmaBigintCreate (4 * value.length + 4)
    .ok (value ++ [digit])

theorem ecmaBigUintExtend_eq {value : List Digit} (digit : Digit) (h : 4 * value.length ≤ maxSize) :
    ecmaBigUintExtend value digit = boxed (value ++ [digit]) := by
  have hm : maxSize = 0x10000 := rfl
  unfold ecmaBigUintExtend
  split
  · rw [boxed_ok (by simp; omega)]
  · rw [show 4 * value.length + 4 = 4 * (value.length + 1) by omega]
    by_cases hs : maxSize < 4 * (value.length + 1)
    · rw [ecmaBigintCreate_null hs, error_bind, boxed, if_pos (by simpa using hs)]
    · rw [ecmaBigintCreate_ok (by omega) (by omega), ok_bind, boxed_ok (by simp; omega)]

/-- One iteration of the loop below, on `digit` and `result`. -/
def clzStep (s : Digit × Digit) (shift : Nat) : Digit × Digit :=
  let value := s.1 >>> shift
  if 0#32 < value then (value, s.2 - BitVec.ofNat 32 shift) else s

/-- `ecma_big_uint_count_leading_zero`: the loop halves `shift` from 16 down to 1. -/
def ecmaBigUintCountLeadingZero (digit : Digit) : Digit :=
  let s := [16, 8, 4, 2, 1].foldl clzStep (digit, 32#32)
  s.2 - s.1

/-- `ecma_big_uint_normalize_result`: drop the leading zero digits. The assertion is the one on
`last_digit_p[-1]`. -/
def ecmaBigUintNormalizeResult (value : List Digit) : Res (List Digit) := do
  jjsAssert (value.getLast? = some 0#32)
  let result := trim value
  if result = [] then .ok []
  else if result.length % 2 = 1 ∧ result.length + 1 = value.length then .ok result
  else do
    ecmaBigintCreate (4 * result.length)
    .ok result

theorem ecmaBigUintNormalizeResult_ok {value : List Digit} (h0 : value.getLast? = some 0#32)
    (h : 4 * value.length ≤ maxSize) : ecmaBigUintNormalizeResult value = .ok (trim value) := by
  have hle := trim_length_le value
  rw [ecmaBigUintNormalizeResult, jjsAssert_ok h0, ok_bind]
  simp only []
  split
  · rename_i he; rw [he]
  · split
    · rfl
    · rename_i hne _
      rw [ecmaBigintCreate_ok (List.length_pos_iff.mpr hne) (by omega), ok_bind]

/-- Return the block, without its leading zeros if the last digit is zero. -/
def normalizeIfZero (value : List Digit) : Res (List Digit) :=
  if value.getLast? ≠ some 0#32 then .ok value else ecmaBigUintNormalizeResult value

theorem trim_of_trimmed {ds : List Digit} (h : Trimmed ds) : trim ds = ds :=
  (trimmed_trim ds).ext (by decide) h (val_trim ds)

theorem normalizeIfZero_ok {value : List Digit} (h : 4 * value.length ≤ maxSize) :
    normalizeIfZero value = .ok (trim value) := by
  unfold normalizeIfZero
  split
  · rename_i hn; rw [trim_of_trimmed hn]
  · rename_i hn; exact ecmaBigUintNormalizeResult_ok (by simpa using hn) h

/-- The digits of a block incremented by one; the flag tells that every digit was all ones. -/
def increaseDigits : List Digit → List Digit × Bool
  | [] => ([], true)
  | d :: ds =>
    if d = maxDigit then
      let r := increaseDigits ds
      (0#32 :: r.1, r.2)
    else ((d + 1#32) :: ds, false)

/-- `ecma_big_uint_increase_result`. -/
def ecmaBigUintIncreaseResult (value : List Digit) : Res (List Digit) := do
  jjsAssert (0 < value.length)
  match increaseDigits value with
  | (digits, true) => ecmaBigUintExtend digits 1#32
  | (digits, false) => normalizeIfZero digits

theorem increaseDigits_length (ds : List Digit) : (increaseDigits ds).1.length = ds.length := by
  induction ds with
  | nil => rfl
  | cons d ds ih => simp only [increaseDigits]; split <;> simp [ih]

theorem increaseDigits_val (ds : List Digit) :
    val (increaseDigits ds).1 + (if (increaseDigits ds).2 then (2 ^ 32) ^ ds.length else 0) =
      val ds + 1 := by
  induction ds with
  | nil => rfl
  | cons d ds ih =>
    simp only [increaseDigits]
    split
    · rename_i hd
      subst hd
      simp only [val_cons, List.length_cons, weight_succ, toNat_maxDigit, BitVec.toNat_zero]
      generalize (2 ^ 32) ^ ds.length = p at ih ⊢
      cases h : (increaseDigits ds).2 <;> rw [h] at ih <;>
        simp only [if_true, if_false, Bool.false_eq_true] at ih ⊢ <;> omega
    · rename_i hd
      have := toNat_lt_of_ne_maxDigit hd
      have : (d + 1#32).toNat = d.toNat + 1 := by bv_omega
      simp only [val_cons, this, Bool.false_eq_true, if_false]
      omega

/-- Incrementing a value gives the trimmed digits of the successor, if they fit. -/
theorem ecmaBigUintIncreaseResult_eq {value : List Digit} (hne : value ≠ [])
    (h : 4 * value.length ≤ maxSize) :
    ∃ ds, Trimmed ds ∧ val ds = val value + 1 ∧ ecmaBigUintIncreaseResult value = boxed ds := by
  have hl := increaseDigits_length value
  have hv := increaseDigits_val value
  rw [ecmaBigUintIncreaseResult, jjsAssert_ok (List.length_pos_iff.mpr hne), ok_bind]
  split
  · rename_i digits he
    rw [he] at hl hv
    simp only [if_true] at hl hv
    refine ⟨digits ++ [1#32], trimmed_concat.mpr (by decide), ?_, ecmaBigUintExtend_eq 1#32 (by omega)⟩
    rw [val_concat, hl, ← hv]; simp
  · rename_i digits he
    rw [he] at hl hv
    simp only [Bool.false_eq_true, if_false, Nat.add_zero] at hl hv
    have hle := trim_length_le digits
    refine ⟨trim digits, trimmed_trim _, by rw [val_trim, hv], ?_⟩
    rw [normalizeIfZero_ok (by omega), boxed_ok (by omega)]

/-! ## Comparing -/

/-- The comparison loop, most significant digit first. -/
def compareDigits : List Digit → List Digit → Ordering
  | l :: ls, r :: rs => if l < r then .lt else if r < l then .gt else compareDigits ls rs
  | _, _ => .eq

/-- `ecma_big_uint_compare`. -/
def ecmaBigUintCompare (left right : List Digit) : Ordering :=
  if right.length < left.length then .gt
  else if left.length < right.length then .lt
  else compareDigits left.reverse right.reverse

theorem compareDigits_eq (ls rs : List Digit) (h : ls.length = rs.length) :
    compareDigits ls rs = compare (val ls.reverse) (val rs.reverse) := by
  induction ls generalizing rs with
  | nil =>
    have : rs = [] := List.length_eq_zero_iff.mp h.symm
    subst this; rfl
  | cons l ls ih =>
    cases rs with
    | nil => simp at h
    | cons r rs =>
      have hl : ls.length = rs.length := by simpa using h
      have h1 := val_lt ls.reverse
      have h2 := val_lt rs.reverse
      simp only [List.length_reverse] at h1 h2
      rw [← hl] at h2
      simp only [compareDigits, List.reverse_cons, val_concat, List.length_reverse, ← hl, BitVec.lt_def]
      generalize (2 ^ 32) ^ ls.length = p at h1 h2 ⊢
      split
      · rename_i hlt
        have := Nat.mul_le_mul_left p (show l.toNat + 1 ≤ r.toNat from hlt)
        rw [Nat.mul_add] at this
        rw [eq_comm, compare_lt_iff_lt]; omega
      · split
        · rename_i hlt
          have := Nat.mul_le_mul_left p (show r.toNat + 1 ≤ l.toNat from hlt)
          rw [Nat.mul_add] at this
          rw [eq_comm, compare_gt_iff_gt]; omega
        · have he : l.toNat = r.toNat := by omega
          rw [ih rs hl, he]
          rcases Nat.lt_trichotomy (val ls.reverse) (val rs.reverse) with h | h | h
          · rw [compare_lt_iff_lt.mpr h, eq_comm, compare_lt_iff_lt]; omega
          · rw [h]; simp
          · rw [compare_gt_iff_gt.mpr h, eq_comm, compare_gt_iff_gt]; omega

/-- On trimmed blocks the comparison is the one of the numbers. -/
theorem ecmaBigUintCompare_eq {left right : List Digit} (hl : Trimmed left) (hr : Trimmed right) :
    ecmaBigUintCompare left right = compare (val left) (val right) := by
  unfold ecmaBigUintCompare
  split
  · rw [eq_comm, compare_gt_iff_gt]
    exact hl.val_lt_of_length_lt (by decide) ‹_›
  · split
    · rw [eq_comm, compare_lt_iff_lt]
      exact hr.val_lt_of_length_lt (by decide) ‹_›
    · rw [compareDigits_eq _ _ (by simp; omega), List.reverse_reverse, List.reverse_reverse]

end BigInt
end JJS
