import JJS.FastArray.Normal

/-!
# JJS.FastArray.Fast

Arrays in fast mode: the invariant that ties the buffer, the length and the stored number of holes, and what each
operation makes of it.
-/

namespace JJS
namespace FastArray

open Strings (directStringMaxImm uint32Max)

variable {κ α : Type}

/-! ## The word of the flags and the hole count -/

/-- The word of a fast array with this number of holes: `length` is writable. -/
def fastWord (holes : Nat) : BitVec 32 := BitVec.ofNat 24 holes ++ 0xec#8

theorem toNat_fastWord (holes : Nat) : (fastWord holes).toNat = 256 * (holes % 2 ^ 24) + 0xec := by
  have hlow : (0xec#8).toNat < 2 ^ 8 := (0xec#8).isLt
  rw [fastWord, BitVec.toNat_append, ← Nat.shiftLeft_add_eq_or_of_lt hlow, Nat.shiftLeft_eq, BitVec.toNat_ofNat]
  show _ * 2 ^ 8 + 0xec = _
  omega

theorem fastWord_flag (holes : Nat) : fastWord holes &&& fastArrayFlag = fastArrayFlag := by
  have hflag : fastArrayFlag = 0#24 ++ 0x08#8 := by decide
  rw [hflag, fastWord, BitVec.and_append, BitVec.and_zero]
  rfl

theorem fastWord_writable (holes : Nat) : fastWord holes &&& propertyFlagWritable = propertyFlagWritable := by
  have hflag : propertyFlagWritable = 0#24 ++ 0x04#8 := by decide
  rw [hflag, fastWord, BitVec.and_append, BitVec.and_zero]
  rfl

theorem fastWord_add (holes new : Nat) :
    fastWord holes + BitVec.ofNat 32 new * fastArrayHoleOne = fastWord (holes + new) := by
  apply BitVec.eq_of_toNat_eq
  have hone : fastArrayHoleOne.toNat = 256 := by decide
  rw [BitVec.toNat_add, BitVec.toNat_mul, BitVec.toNat_ofNat, hone, toNat_fastWord, toNat_fastWord]
  omega

theorem fastWord_succ (holes : Nat) : fastWord holes + fastArrayHoleOne = fastWord (holes + 1) := by
  have hadd := fastWord_add holes 1
  have hone : BitVec.ofNat 32 1 * fastArrayHoleOne = fastArrayHoleOne := by decide
  rw [hone] at hadd
  exact hadd

theorem fastWord_pred (holes : Nat) : fastWord (holes + 1) - fastArrayHoleOne = fastWord holes := by
  rw [← fastWord_succ, BitVec.add_sub_cancel]

theorem fastWord_holes (holes : Nat) : (fastWord holes >>> fastArrayHoleShift).toNat = holes % 2 ^ 24 := by
  rw [BitVec.toNat_ushiftRight, toNat_fastWord, fastArrayHoleShift, Nat.shiftRight_eq_div_pow]
  omega

/-! ## Holes -/

/-- The holes among the first `n` slots. -/
def holesBelow (values : List (Option α)) (n : Nat) : Nat := (values.take n).countP Option.isNone

variable {values : List (Option α)} {n m i : Nat}

theorem holesBelow_zero (values : List (Option α)) : holesBelow values 0 = 0 := rfl

theorem holesBelow_succ (hn : n < values.length) :
    holesBelow values (n + 1) = holesBelow values n + if (values.getD n none).isNone then 1 else 0 := by
  rw [holesBelow, holesBelow, List.take_add_one, List.countP_append, List.getElem?_eq_getElem hn, ← List.getElem_eq_getD (h := hn) none]
  cases values[n] with
  | none => rfl
  | some value => rfl

/-- Free slots are all holes. -/
theorem holesBelow_add (hm : m ≤ values.length) (hnm : n ≤ m) (hfree : ∀ i, n ≤ i → i < m → values.getD i none = none) :
    holesBelow values m = holesBelow values n + (m - n) := by
  induction m with
  | zero =>
    have hn : n = 0 := by omega
    rw [hn]
    rfl
  | succ m ih =>
    by_cases heq : n = m + 1
    · rw [heq, Nat.sub_self]
      rfl
    · have hprev := ih (by omega) (by omega) (fun i hi hlt => hfree i hi (by omega))
      rw [holesBelow_succ (by omega), hprev, hfree m (by omega) (by omega)]
      show _ + 1 = _
      omega

/-- The slots are counted by what is in them. -/
theorem holesBelow_congr {values values' : List (Option α)} (hn : n ≤ values.length) (hn' : n ≤ values'.length)
    (h : ∀ i < n, values.getD i none = values'.getD i none) : holesBelow values n = holesBelow values' n := by
  induction n with
  | zero => rfl
  | succ n ih =>
    rw [holesBelow_succ (by omega), holesBelow_succ (by omega), ih (by omega) (by omega) (fun i hi => h i (by omega)),
      h n (Nat.lt_succ_self n)]

theorem getD_set (values : List (Option α)) (i j : Nat) (value : Option α) (hi : i < values.length) :
    (values.set i value).getD j none = if j = i then value else values.getD j none := by
  rw [List.getD_eq_getElem?_getD, List.getD_eq_getElem?_getD, List.getElem?_set]
  by_cases heq : i = j
  · rw [if_pos heq, if_pos (by omega), if_pos heq.symm]
    rfl
  · rw [if_neg heq, if_neg (fun h => heq h.symm)]

/-- One slot gets another value. -/
theorem holesBelow_set (hi : i < n) (hn : n ≤ values.length) (value : Option α) :
    holesBelow (values.set i value) n + (if (values.getD i none).isNone then 1 else 0) =
      holesBelow values n + if value.isNone then 1 else 0 := by
  have hset := getD_set values i
  induction n with
  | zero => cases hi
  | succ n ih =>
    have hlen : (values.set i value).length = values.length := List.length_set
    rw [holesBelow_succ (by omega), holesBelow_succ (by omega)]
    by_cases heq : i = n
    · have hbelow : holesBelow (values.set i value) n = holesBelow values n :=
        holesBelow_congr (by omega) (by omega) (fun j hj => by rw [hset j value (by omega), if_neg (by omega)])
      rw [hbelow, hset n value (by omega), if_pos heq.symm, heq]
      omega
    · have hprev := ih (by omega) (by omega)
      have hslot : (values.set i value).getD n none = values.getD n none := by
        rw [hset n value (by omega), if_neg (by omega)]
      rw [hslot]
      omega

/-- A buffer for the length: of the aligned length, with holes behind the elements. -/
structure Buffer (length : Nat) (values : List (Option α)) : Prop where
  short : length < 2 ^ 30
  size : values.length = fastArrayAlignLength length
  spare : ∀ i, length ≤ i → values.getD i none = none

/-- The fast array with this length and buffer: it counts its holes, and has no buffer when it is empty. -/
def fastArray (length : Nat) (values : List (Option α)) : ArrayObject κ α where
  length := length
  lengthPropAndHoleCount := fastWord (holesBelow values length)
  propertyList := if length = 0 then .null else .values values

/-- An array in fast mode. The stored number of holes has 24 bits. -/
def FastOk (array : ArrayObject κ α) : Prop :=
  ∃ length values, array = fastArray length values ∧ Buffer length values ∧ holesBelow values length < 2 ^ 24

variable {length : Nat}

theorem align_ge (h : length < 2 ^ 30) : length ≤ fastArrayAlignLength length := by
  rw [fastArrayAlignLength]
  omega

theorem align_zero : fastArrayAlignLength 0 = 0 := rfl

@[simp] theorem length_fastArray (length : Nat) (values : List (Option α)) :
    (fastArray length values : ArrayObject κ α).length = length := rfl

@[simp] theorem word_fastArray (length : Nat) (values : List (Option α)) :
    (fastArray length values : ArrayObject κ α).lengthPropAndHoleCount = fastWord (holesBelow values length) := rfl

theorem isFast_fastArray (length : Nat) (values : List (Option α)) :
    (fastArray length values : ArrayObject κ α).isFast = true := by
  show (fastWord _ &&& fastArrayFlag != 0#32) = true
  rw [fastWord_flag]
  decide

theorem isWritable_fastArray (length : Nat) (values : List (Option α)) :
    (fastArray length values : ArrayObject κ α).isWritable = true := by
  show (fastWord _ &&& propertyFlagWritable != 0#32) = true
  rw [fastWord_writable]
  decide

theorem Buffer.getValues (h : Buffer length values) :
    (fastArray length values : ArrayObject κ α).propertyList.getValues = values := by
  show (if length = 0 then PropertyList.null else PropertyList.values values).getValues = values
  split
  · rename_i hzero
    have hsize := h.size
    rw [hzero, align_zero] at hsize
    rw [List.length_eq_zero_iff.mp hsize]
    rfl
  · rfl

theorem getHoleCount_fastArray (hholes : holesBelow values length < 2 ^ 24) :
    (fastArray length values : ArrayObject κ α).getHoleCount.toNat = holesBelow values length := by
  show (fastWord (holesBelow values length) >>> fastArrayHoleShift).toNat = _
  rw [fastWord_holes, Nat.mod_eq_of_lt hholes]

/-- The elements of a buffer as properties. -/
def elements (values : List (Option α)) (key : Key κ) : Option (α × Bool) :=
  if key.IsIndex then (values.getD (ecmaStringGetArrayIndex key) none).map fun value => (value, true) else none

theorem content_fastArray [DecidableEq κ] (cpointer32Bit : Bool) (h : Buffer length values) :
    content cpointer32Bit (fastArray length values : ArrayObject κ α) = ⟨length, true, elements values⟩ := by
  refine Content.ext rfl (isWritable_fastArray length values) ?_
  funext key
  show ecmaOpObjectGetOwnProperty cpointer32Bit (fastArray length values) key = elements values key
  rw [ecmaOpObjectGetOwnProperty, isFast_fastArray, if_pos rfl, h.getValues, length_fastArray, elements]
  dsimp only
  by_cases hindex : key.IsIndex
  · rw [if_pos hindex]
    by_cases hlt : ecmaStringGetArrayIndex key < length
    · exact if_pos ⟨hindex, hlt⟩
    · rw [h.spare _ (Nat.le_of_not_lt hlt)]
      exact if_neg fun hboth => hlt hboth.2
  · rw [if_neg hindex]
    exact if_neg fun hboth => hindex hboth.1

theorem index_inj {key key' : Key κ} (hindex : key.IsIndex)
    (h : ecmaStringGetArrayIndex key = ecmaStringGetArrayIndex key') : key = key' := by
  cases key with
  | number n =>
    cases key' with
    | number n' => rw [BitVec.eq_of_toNat_eq h]
    | other name => exact absurd h hindex
  | other name => exact absurd rfl hindex

/-- The elements with one more value or hole. -/
theorem elements_set [DecidableEq κ] {key : Key κ} (hindex : key.IsIndex)
    (hlt : ecmaStringGetArrayIndex key < values.length) (value : Option α) (other : Key κ) :
    elements (values.set (ecmaStringGetArrayIndex key) value) other =
      if other = key then value.map (fun value => (value, true)) else elements values other := by
  rw [elements, elements, getD_set values _ _ value hlt]
  by_cases heq : other = key
  · rw [if_pos heq, heq, if_pos hindex, if_pos rfl]
  · rw [if_neg heq]
    by_cases hother : other.IsIndex
    · rw [if_pos hother, if_pos hother, if_neg (fun h => heq (index_inj hother h))]
    · rw [if_neg hother, if_neg hother]

/-! ## Operations -/

section Operations

variable [DecidableEq κ] {cpointer32Bit : Bool} {available : BitVec 32} {value : α}

/-- A write below the length. -/
theorem set_below (h : Buffer length values) (hi : i < length) :
    ecmaFastArraySetProperty cpointer32Bit available (fastArray length values : ArrayObject κ α) i value =
        some (fastArray length (values.set i (some value)), true) ∧ Buffer length (values.set i (some value)) := by
  have hle := align_ge h.short
  have hsize := h.size
  have hholes := holesBelow_set hi (show length ≤ values.length by omega) (some value)
  rw [if_neg (show ¬ (some value).isNone = true from Bool.false_ne_true), Nat.add_zero] at hholes
  constructor
  · have hne : length ≠ 0 := by omega
    have hword : (if (values.getD i none).isNone then fastWord (holesBelow values length) - fastArrayHoleOne
        else fastWord (holesBelow values length)) = fastWord (holesBelow (values.set i (some value)) length) := by
      split
      · rename_i hhole
        rw [if_pos hhole] at hholes
        rw [← hholes, fastWord_pred]
      · rename_i hfull
        rw [if_neg hfull, Nat.add_zero] at hholes
        rw [hholes]
    rw [ecmaFastArraySetProperty, length_fastArray, if_pos hi, ArrayObject.store, h.getValues, word_fastArray]
    dsimp only
    rw [hword, fastArray, if_neg hne]
  · refine ⟨h.short, by rw [List.length_set]; exact hsize, ?_⟩
    intro j hj
    rw [getD_set values i j _ (by omega), if_neg (by omega)]
    exact h.spare j hj

/-- The buffer after `ecma_fast_array_extend`. -/
def extended (values : List (Option α)) (length newLength : Nat) : List (Option α) :=
  values.take length ++ List.replicate (fastArrayAlignLength newLength - length) none

theorem getD_extended (h : Buffer length values) {newLength : Nat} (i : Nat) :
    (extended values length newLength).getD i none = values.getD i none := by
  have hle := align_ge h.short
  have hsize := h.size
  rw [extended, List.getD_eq_getElem?_getD, List.getD_eq_getElem?_getD, List.getElem?_append, List.length_take,
    Nat.min_eq_left (by omega)]
  split
  · rename_i hlt
    rw [List.getElem?_take_of_lt hlt]
  · rename_i hge
    have hfree := h.spare i (Nat.le_of_not_lt hge)
    rw [List.getD_eq_getElem?_getD] at hfree
    rw [hfree, List.getElem?_replicate]
    split
    · rfl
    · rfl

theorem buffer_extended (h : Buffer length values) {newLength : Nat} (hlt : length ≤ newLength)
    (hshort : newLength < 2 ^ 30) : Buffer newLength (extended values length newLength) where
  short := hshort
  size := by
    have hle := align_ge h.short
    have hle' := align_ge hshort
    rw [extended, List.length_append, List.length_take, List.length_replicate, h.size]
    omega
  spare := by
    intro i hi
    rw [getD_extended h]
    exact h.spare i (by omega)

theorem holes_extended (h : Buffer length values) {newLength : Nat} (hlt : length ≤ newLength)
    (hshort : newLength < 2 ^ 30) :
    holesBelow (extended values length newLength) newLength = holesBelow values length + (newLength - length) := by
  have hle := align_ge h.short
  have hle' := align_ge hshort
  have hsize := h.size
  have hnew := (buffer_extended h hlt hshort).size
  have hadd : holesBelow (extended values length newLength) newLength =
      holesBelow (extended values length newLength) length + (newLength - length) :=
    holesBelow_add (by omega) hlt (fun i hi _ => by rw [getD_extended h]; exact h.spare i hi)
  have hbelow : holesBelow (extended values length newLength) length = holesBelow values length :=
    holesBelow_congr (by omega) (by omega) (fun i _ => getD_extended h i)
  rw [hadd, hbelow]

theorem extend_fastArray (h : Buffer length values) {newLength : Nat} (hlt : length < newLength)
    (hshort : newLength < 2 ^ 30) {array : ArrayObject κ α}
    (hextend : ecmaFastArrayExtend available (fastArray length values) newLength = some array) :
    array = fastArray newLength (extended values length newLength) := by
  rw [ecmaFastArrayExtend] at hextend
  split at hextend
  · cases hextend
  · cases hextend
    have hword : (fastArray length values : ArrayObject κ α).lengthPropAndHoleCount =
        fastWord (holesBelow values length) := rfl
    have hlength : (fastArray length values : ArrayObject κ α).length = length := rfl
    rw [hlength, hword, fastWord_add, h.getValues, ← holes_extended h (by omega) hshort, fastArray,
      if_neg (show newLength ≠ 0 by omega)]
    rfl

end Operations

end FastArray
end JJS
