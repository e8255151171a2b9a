import JJS.FastArray.Append

/-!
# JJS.FastArray.Dense

Arrays in fast mode stay dense (`reached_dense`): as long as no deletion and no array literal takes the number of holes
above `ECMA_FAST_ARRAY_MAX_HOLE_COUNT`, the test of a write or of a new length against that limit does not wrap.
-/

namespace JJS
namespace FastArray

open Strings (directStringMaxImm uint32Max)

variable {κ α : Type} [DecidableEq κ]

/-! ## Runs -/

/-- What is done to an array: an operation, `Array.prototype.push`, or the items of an array literal. In normal mode
`Array.prototype.push` is made of the other operations. -/
inductive Act (κ α : Type) where
  | op (o : Op κ α)
  | push (args : List α)
  | append (items : List (Option α))

/-- The arrays that are reached by acts that all meet a condition on the array before them. An array literal is made by
its items and the elements that are spread into it; nothing else has the array before it is finished. -/
inductive Reached (cpointer32Bit : Bool) (allowed : ArrayObject κ α → Act κ α → Prop) : Bool → ArrayObject κ α → Prop where
  | create {available : BitVec 32} {source : Source α} {array : ArrayObject κ α} :
      create cpointer32Bit available source = some array → Reached cpointer32Bit allowed false array
  | literal (available : BitVec 32) : Reached cpointer32Bit allowed true (ecmaOpNewArrayObject available 0#32)
  | append {available : BitVec 32} {items : List (Option α)} {array array' : ArrayObject κ α} :
      Reached cpointer32Bit allowed true array → items ≠ [] → items.length < 2 ^ 8 → allowed array (.append items) →
      opfuncAppendArray cpointer32Bit available array items = some array' → Reached cpointer32Bit allowed true array'
  | spread {available : BitVec 32} {key : Key κ} {value : α} {array array' : ArrayObject κ α} {completion : Completion} :
      Reached cpointer32Bit allowed true array → allowed array (.op (.define key value true)) →
      step cpointer32Bit available array (.define key value true) = some (array', completion) →
      Reached cpointer32Bit allowed true array'
  | finished {array : ArrayObject κ α} : Reached cpointer32Bit allowed true array → Reached cpointer32Bit allowed false array
  | op {available : BitVec 32} {o : Op κ α} {array array' : ArrayObject κ α} {completion : Completion} :
      Reached cpointer32Bit allowed false array → allowed array (.op o) →
      step cpointer32Bit available array o = some (array', completion) → Reached cpointer32Bit allowed false array'
  | push {available : BitVec 32} {args : List α} {array array' : ArrayObject κ α} {completion : Completion} :
      Reached cpointer32Bit allowed false array → array.isFast = true → args.length < 2 ^ 32 → allowed array (.push args) →
      ecmaBuiltinArrayPrototypeObjectPush available array args = some (array', completion) →
      Reached cpointer32Bit allowed false array'

/-- The holes of an array in fast mode. -/
def ArrayObject.holes (array : ArrayObject κ α) : Nat := holesBelow array.propertyList.getValues array.length

/-- An array in fast mode is dense: the stored number of holes is right and within the limit; a step that leaves the
array in fast mode adds at most the limit; and a write or a new length behind the end either leaves at most the limit of
holes, with a length whose alignment does not wrap, or converts the array, whatever the memory. -/
structure Dense (cpointer32Bit : Bool) (array : ArrayObject κ α) : Prop where
  counted : array.getHoleCount.toNat = array.holes
  limit : array.getHoleCount.toNat ≤ fastArrayMaxHoleCount
  length : array.length < uint32Max ∧ array.length ≤ fastArrayAlignLength array.length
  step : ∀ (available : BitVec 32) (o : Op κ α) (array' : ArrayObject κ α) (completion : Completion),
    step cpointer32Bit available array o = some (array', completion) → array'.isFast = true →
    array'.holes ≤ array.holes + fastArrayMaxHoleCount
  write : ∀ index, array.length ≤ index → index < uint32Max →
    if array.holes + (index - array.length) ≤ fastArrayMaxHoleCount then
      index + 1 < uint32Max ∧ index + 1 ≤ fastArrayAlignLength (index + 1)
    else ∀ (available : BitVec 32) (value : α), ecmaFastArraySetProperty cpointer32Bit available array index value =
      some (ecmaFastArrayConvertToNormal cpointer32Bit array, false)
  lengthen : ∀ newLength, array.length < newLength → newLength ≤ uint32Max →
    if array.holes + (newLength - array.length) ≤ fastArrayMaxHoleCount then
      newLength < uint32Max ∧ newLength ≤ fastArrayAlignLength newLength
    else ∀ available : BitVec 32, ecmaFastArraySetLength cpointer32Bit available array newLength =
      some (ecmaFastArrayConvertToNormal cpointer32Bit array)

/-- A deletion of an element and an array literal that stays in fast mode leave at most the limit of holes; and a new
length from `Array.prototype.push` can be aligned. -/
def Allowed (cpointer32Bit : Bool) (array : ArrayObject κ α) : Act κ α → Prop
  | .op (.delete key) => array.isFast = true → (ecmaOpObjectGetOwnProperty cpointer32Bit array key).isSome = true →
      array.getHoleCount.toNat < fastArrayMaxHoleCount
  | .op _ => True
  | .push args => array.length + args.length + 7 < 2 ^ 32
  | .append items => array.isFast = true → holeCount items ≤ fastArrayMaxNewHolesCount →
      array.getHoleCount.toNat + holeCount items ≤ fastArrayMaxHoleCount

/-! ## Normal mode -/

section Normal

variable {cpointer32Bit : Bool} {available : BitVec 32} {array array' : ArrayObject κ α} {key : Key κ} {value : α}

theorem putNormal_isFast : (putNormal cpointer32Bit array key value).1.isFast = array.isFast := by
  rw [putNormal]
  split
  · rfl
  · dsimp only
    split
    · split
      · rfl
      · rfl
    · rfl

theorem defineGeneral_isFast (configurable : Bool) :
    (ecmaOpGeneralObjectDefineOwnProperty cpointer32Bit array key value configurable).1.isFast = array.isFast := by
  rw [ecmaOpGeneralObjectDefineOwnProperty]
  split
  · rfl
  · split
    · rfl
    · rfl

theorem defineNormal_isFast (configurable : Bool) :
    (defineOwnPropertyNormal cpointer32Bit array key value configurable).1.isFast = array.isFast := by
  have hgeneral := @defineGeneral_isFast κ α _ cpointer32Bit array key value configurable
  rw [defineOwnPropertyNormal]
  dsimp only
  split
  · exact hgeneral
  · split
    · rfl
    · split
      · exact hgeneral
      · split
        · exact hgeneral
        · exact hgeneral

omit [DecidableEq κ] in
theorem readOnly_isFast : (makeLengthReadOnly cpointer32Bit array).isFast = false := by
  rw [makeLengthReadOnly]
  rw [isFast_clearWritable]
  split
  · exact isFast_convert _ _
  · rename_i hnormal
    exact Bool.eq_false_iff.mpr hnormal

theorem delete_isFast (hnormal : array.isFast = false) :
    (ecmaOpGeneralObjectDelete cpointer32Bit array key).1.isFast = false := by
  rw [ecmaOpGeneralObjectDelete]
  split
  · exact hnormal
  · split
    · exact hnormal
    · rw [ecmaArrayObjectDeleteProperty, hnormal]
      exact hnormal

/-- What a new length makes of an array that stays in fast mode. -/
theorem setLength_fast {newLen : Option (BitVec 32)} {flags : LengthFlags} {completion : Completion}
    (hset : ecmaOpArrayObjectSetLength cpointer32Bit available array newLen flags = some (array', completion))
    (hfast : array'.isFast = true) :
    array' = array ∨ ∃ n : BitVec 32, ∃ array1, array' = { array1 with length := n.toNat } ∧
      (n.toNat < array.length ∧ array.isFast = true ∧ array1 = ecmaDeleteFastArrayProperties array n.toNat ∨
        array.length < n.toNat ∧ array.isFast = true ∧
          ecmaFastArraySetLength cpointer32Bit available array n.toNat = some array1) := by
  have hsame : ∀ array1 : ArrayObject κ α,
      array' = (if flags.writable = some false then makeLengthReadOnly cpointer32Bit array1 else array1) → array' = array1 := by
    intro array1 h1
    split at h1
    · rw [h1, readOnly_isFast] at hfast
      cases hfast
    · exact h1
  rw [ecmaOpArrayObjectSetLength.eq_def] at hset
  cases newLen with
  | none =>
    cases hset
    exact Or.inl rfl
  | some n =>
    dsimp only at hset
    split at hset
    · cases hset
      exact Or.inl rfl
    · split at hset
      · split at hset
        · cases hset
          exact Or.inl rfl
        · cases hset
          rw [readOnly_isFast] at hfast
          cases hfast
        · cases hset
          exact Or.inl rfl
      · rename_i hne
        split at hset
        · cases hset
          exact Or.inl rfl
        · split at hset
          · rename_i hlt
            obtain ⟨⟨array1, currentLen⟩, hlen, hset⟩ := Option.bind_eq_some_iff.mp hset
            have harray := hsame _ (congrArg Prod.fst (Option.some.inj hset)).symm
            have hfast1 : array1.isFast = true := by
              rw [harray] at hfast
              exact hfast
            rw [ecmaDeleteArrayProperties, Option.some.injEq] at hlen
            dsimp only at harray
            cases harrayFast : array.isFast with
            | true =>
              rw [if_pos harrayFast] at hlen
              cases hlen
              exact Or.inr ⟨n, _, harray, Or.inl ⟨hlt, rfl, rfl⟩⟩
            | false =>
              rw [if_neg (by rw [harrayFast]; exact Bool.false_ne_true)] at hlen
              dsimp only at hlen
              split at hlen
              · cases hlen
                rw [harrayFast] at hfast1
                cases hfast1
              · cases hlen
                rw [ArrayObject.isFast] at hfast1 harrayFast
                rw [harrayFast] at hfast1
                cases hfast1
          · rename_i hge
            split at hset
            · rename_i harrayFast
              obtain ⟨array1, hextend, hset⟩ := Option.bind_eq_some_iff.mp hset
              have harray := hsame _ (congrArg Prod.fst (Option.some.inj hset)).symm
              exact Or.inr ⟨n, array1, harray, Or.inr ⟨by omega, harrayFast, hextend⟩⟩
            · rename_i hnormal
              have harray := hsame _ (congrArg Prod.fst (Option.some.inj hset)).symm
              rw [harray] at hfast
              exact absurd hfast hnormal

end Normal

/-! ## Steps -/

section Steps

variable {cpointer32Bit : Bool} {available : BitVec 32} {array array' : ArrayObject κ α} {key : Key κ} {value : α}
variable {length limit : Nat} {values : List (Option α)} {completion : Completion}

/-- In fast mode, the array has a buffer with at most so many holes. -/
def FastUpTo (limit : Nat) (array : ArrayObject κ α) : Prop :=
  array.isFast = true → ∃ length values, FastWith length values array ∧ holesBelow values length ≤ limit

theorem FastUpTo.normal (h : array.isFast = false) : FastUpTo limit array := by
  intro hfast
  rw [h] at hfast
  cases hfast

/-- A write keeps the array in fast mode with no more holes than the limit, or converts it. -/
theorem FastWith.set (h : FastWith length values array) (hholes : holesBelow values length ≤ fastArrayMaxHoleCount)
    {index : Nat} (hindex : index < 2 ^ 32) {set : Bool}
    (hset : ecmaFastArraySetProperty cpointer32Bit available array index value = some (array', set)) :
    set = true ∧ FastUpTo fastArrayMaxHoleCount array' ∨
      set = false ∧ array' = ecmaFastArrayConvertToNormal cpointer32Bit array := by
  by_cases hlt : index < length
  · obtain ⟨array1, hbelow, hfast, hle⟩ := h.setBelow hlt
    rw [hbelow] at hset
    cases hset
    exact Or.inl ⟨rfl, fun _ => ⟨_, _, hfast, Nat.le_trans hle hholes⟩⟩
  · by_cases hfit : holesBelow values length + (index - length) ≤ fastArrayMaxHoleCount
    · obtain ⟨htrue, values', hfast, -, heq⟩ := h.setBehind (by omega) hfit hset
      exact Or.inl ⟨htrue, fun _ => ⟨_, _, hfast, by omega⟩⟩
    · rw [h.setFar hholes (by omega) hindex (by omega)] at hset
      cases hset
      exact Or.inr ⟨rfl, rfl⟩

theorem index_lt (key : Key κ) : ecmaStringGetArrayIndex key < 2 ^ 32 := by
  have hle := index_le key
  rw [uint32Max] at hle
  omega

theorem put_fast (h : FastWith length values array) (hholes : holesBelow values length ≤ fastArrayMaxHoleCount)
    (hput : ecmaOpObjectPut cpointer32Bit available array key value = some (array', completion)) :
    FastUpTo fastArrayMaxHoleCount array' := by
  have hfast : array.isFast = true := by rw [h.array_eq]; exact isFast_fastArray length values
  have hnormal : ∀ result, putNormal cpointer32Bit (ecmaFastArrayConvertToNormal cpointer32Bit array) key value = result →
      result.1.isFast = false := by
    intro result hresult
    rw [← hresult, putNormal_isFast]
    exact isFast_convert _ _
  rw [ecmaOpObjectPut, if_pos hfast] at hput
  dsimp only at hput
  split at hput
  · exact FastUpTo.normal (hnormal _ (Option.some.inj hput))
  · obtain ⟨⟨array1, set⟩, hset, hput⟩ := Option.bind_eq_some_iff.mp hput
    dsimp only at hput
    cases h.set hholes (index_lt key) hset with
    | inl hkept =>
      rw [if_pos hkept.1] at hput
      cases hput
      exact hkept.2
    | inr hconverted =>
      rw [if_neg (by rw [hconverted.1]; exact Bool.false_ne_true), hconverted.2] at hput
      exact FastUpTo.normal (hnormal _ (Option.some.inj hput))

theorem define_fast (h : FastWith length values array) (hholes : holesBelow values length ≤ fastArrayMaxHoleCount)
    {configurable : Bool} (hdefine : ecmaOpArrayObjectDefineOwnProperty cpointer32Bit available array key value configurable =
      some (array', completion)) : FastUpTo fastArrayMaxHoleCount array' := by
  have hfast : array.isFast = true := by rw [h.array_eq]; exact isFast_fastArray length values
  have hnormal : ∀ result, defineOwnPropertyNormal cpointer32Bit (ecmaFastArrayConvertToNormal cpointer32Bit array) key value
      configurable = result → result.1.isFast = false := by
    intro result hresult
    rw [← hresult, defineNormal_isFast]
    exact isFast_convert _ _
  rw [ecmaOpArrayObjectDefineOwnProperty, if_pos hfast] at hdefine
  split at hdefine
  · dsimp only at hdefine
    split at hdefine
    · exact FastUpTo.normal (hnormal _ (Option.some.inj hdefine))
    · obtain ⟨⟨array1, set⟩, hset, hdefine⟩ := Option.bind_eq_some_iff.mp hdefine
      dsimp only at hdefine
      cases h.set hholes (index_lt key) hset with
      | inl hkept =>
        rw [if_pos hkept.1] at hdefine
        cases hdefine
        exact hkept.2
      | inr hconverted =>
        rw [if_neg (by rw [hconverted.1]; exact Bool.false_ne_true), hconverted.2] at hdefine
        exact FastUpTo.normal (hnormal _ (Option.some.inj hdefine))
  · exact FastUpTo.normal (hnormal _ (Option.some.inj hdefine))

/-- The deletion of an element. -/
theorem delete_element (h : FastWith length values array) (hindex : key.IsIndex) (hlt : ecmaStringGetArrayIndex key < length)
    {element : α} (helement : values.getD (ecmaStringGetArrayIndex key) none = some element) :
    ecmaOpGeneralObjectDelete cpointer32Bit array key = (ArrayObject.mk array.length
      (array.lengthPropAndHoleCount + fastArrayHoleOne) (array.store (ecmaStringGetArrayIndex key) none), .true) := by
  have hlength : array.length = length := by rw [h.array_eq]; rfl
  have hlist : array.propertyList.getValues = values := by
    rw [h.array_eq]
    exact h.buffer.getValues
  have hget : ecmaOpObjectGetOwnProperty cpointer32Bit array key = some (element, true) := by
    rw [ecmaOpObjectGetOwnProperty, if_pos h.isFast, hlength, hlist]
    dsimp only
    rw [if_pos ⟨hindex, hlt⟩, helement]
    rfl
  have hdelete : ecmaArrayObjectDeleteProperty array key = (ArrayObject.mk array.length
      (array.lengthPropAndHoleCount + fastArrayHoleOne) (array.store (ecmaStringGetArrayIndex key) none), true) := by
    rw [ecmaArrayObjectDeleteProperty, h.isFast, hlist]
    dsimp only
    rw [helement]
    rfl
  rw [ecmaOpGeneralObjectDelete, hget, hdelete]
  rfl

/-- A deletion adds a hole where there was an element. -/
theorem delete_fast (h : FastWith length values array) (hholes : holesBelow values length ≤ limit)
    (hroom : (ecmaOpObjectGetOwnProperty cpointer32Bit array key).isSome = true → holesBelow values length < limit) :
    FastUpTo limit (ecmaOpGeneralObjectDelete cpointer32Bit array key).1 := by
  have hlength : array.length = length := by rw [h.array_eq]; rfl
  have hlist : array.propertyList.getValues = values := by
    rw [h.array_eq]
    exact h.buffer.getValues
  cases hget : ecmaOpObjectGetOwnProperty cpointer32Bit array key with
  | none =>
    rw [ecmaOpGeneralObjectDelete, hget]
    exact fun _ => ⟨length, values, h, hholes⟩
  | some property =>
    have hlt := hroom (by rw [hget]; rfl)
    rw [ecmaOpObjectGetOwnProperty, if_pos h.isFast, hlength, hlist] at hget
    dsimp only at hget
    split at hget
    · rename_i hindex
      obtain ⟨element, helement, hproperty⟩ := Option.map_eq_some_iff.mp hget
      obtain ⟨hdeleted, hcount⟩ := h.delete hindex.2 (by rw [helement]; rfl)
      rw [delete_element h hindex.1 hindex.2 helement]
      exact fun _ => ⟨_, _, hdeleted, by omega⟩
    · cases hget

theorem setLength_fastUpTo (h : FastWith length values array) (hholes : holesBelow values length ≤ fastArrayMaxHoleCount)
    {newLen : Option (BitVec 32)} {flags : LengthFlags}
    (hset : ecmaOpArrayObjectSetLength cpointer32Bit available array newLen flags = some (array', completion)) :
    FastUpTo fastArrayMaxHoleCount array' := by
  intro hfast
  have hlength : array.length = length := by rw [h.array_eq]; rfl
  have hsame : ∀ {n : Nat} {values' : List (Option α)} {array1 : ArrayObject κ α}, FastWith n values' array1 →
      ({ array1 with length := n } : ArrayObject κ α) = array1 := by
    intro n values' array1 h1
    rw [h1.array_eq]
    rfl
  cases setLength_fast hset hfast with
  | inl heq =>
    rw [heq]
    exact ⟨_, _, h, hholes⟩
  | inr hnew =>
    obtain ⟨n, array1, heq, hnew⟩ := hnew
    rw [hlength] at hnew
    cases hnew with
    | inl hshorter =>
      obtain ⟨hlt, -, heq1⟩ := hshorter
      obtain ⟨values', htruncated, hle, -⟩ := h.truncate hlt
      rw [← heq1] at htruncated
      rw [heq, hsame htruncated]
      exact ⟨_, _, htruncated, Nat.le_trans hle hholes⟩
    | inr hlonger =>
      obtain ⟨hlt, -, hextend⟩ := hlonger
      by_cases hfit : holesBelow values length + (n.toNat - length) ≤ fastArrayMaxHoleCount
      · obtain ⟨values', hextended, hcount⟩ := h.lengthen hlt hfit hextend
        rw [heq, hsame hextended]
        exact ⟨_, _, hextended, by omega⟩
      · rw [h.lengthenFar hholes hlt n.isLt (by omega)] at hextend
        cases hextend
        rw [heq] at hfast
        have hconverted : (ecmaFastArrayConvertToNormal cpointer32Bit array).isFast = true := hfast
        rw [isFast_convert] at hconverted
        cases hconverted

/-- An operation on an array in fast mode. Only a deletion of an element can go above the limit, by one hole. -/
theorem step_fast (h : FastWith length values array) (hholes : holesBelow values length ≤ fastArrayMaxHoleCount)
    {o : Op κ α} (hstep : step cpointer32Bit available array o = some (array', completion))
    (hroom : ∀ key, o = .delete key → (ecmaOpObjectGetOwnProperty cpointer32Bit array key).isSome = true →
      holesBelow values length < limit) (hlimit : fastArrayMaxHoleCount ≤ limit) : FastUpTo limit array' := by
  have hraise : FastUpTo fastArrayMaxHoleCount array' → FastUpTo limit array' := by
    intro hresult hfast
    obtain ⟨length', values', h', hle⟩ := hresult hfast
    exact ⟨length', values', h', Nat.le_trans hle hlimit⟩
  have hfast : array.isFast = true := by rw [h.array_eq]; exact isFast_fastArray length values
  cases o with
  | put key value => exact hraise (put_fast h hholes hstep)
  | define key value configurable => exact hraise (define_fast h hholes hstep)
  | delete key =>
    have hdelete := delete_fast h (Nat.le_trans hholes hlimit) (hroom key rfl)
    rw [step, Option.some.injEq] at hstep
    rw [hstep] at hdelete
    exact hdelete
  | putLength newLen =>
    rw [step, putLength] at hstep
    split at hstep
    · exact hraise (setLength_fastUpTo h hholes hstep)
    · cases hstep
      exact fun _ => ⟨length, values, h, Nat.le_trans hholes hlimit⟩
  | setLength newLen flags => exact hraise (setLength_fastUpTo h hholes hstep)
  | convert =>
    rw [step, if_pos hfast] at hstep
    cases hstep
    exact FastUpTo.normal (isFast_convert cpointer32Bit array)

/-- An array in normal mode stays so. -/
theorem step_normal (hnormal : array.isFast = false) {o : Op κ α}
    (hstep : step cpointer32Bit available array o = some (array', completion)) : array'.isFast = false := by
  have hnot : ¬ array.isFast = true := by
    rw [hnormal]
    exact Bool.false_ne_true
  have hset : ∀ {newLen flags}, ecmaOpArrayObjectSetLength cpointer32Bit available array newLen flags =
      some (array', completion) → array'.isFast = false := by
    intro newLen flags hset
    by_contra hfast
    rw [Bool.not_eq_false] at hfast
    cases setLength_fast hset hfast with
    | inl heq =>
      rw [heq] at hfast
      exact hnot hfast
    | inr hnew =>
      obtain ⟨n, array1, -, hnew⟩ := hnew
      cases hnew with
      | inl hshorter => exact hnot hshorter.2.1
      | inr hlonger => exact hnot hlonger.2.1
  cases o with
  | put key value =>
    rw [step, ecmaOpObjectPut, if_neg hnot, Option.some.injEq] at hstep
    rw [← hnormal, ← @putNormal_isFast κ α _ cpointer32Bit array key value, hstep]
  | define key value configurable =>
    rw [step, ecmaOpArrayObjectDefineOwnProperty, if_neg hnot, Option.some.injEq] at hstep
    rw [← hnormal, ← @defineNormal_isFast κ α _ cpointer32Bit array key value configurable, hstep]
  | delete key =>
    rw [step, Option.some.injEq] at hstep
    rw [← @delete_isFast κ α _ cpointer32Bit array key hnormal, hstep]
  | putLength newLen =>
    rw [step, putLength] at hstep
    split at hstep
    · exact hset hstep
    · cases hstep
      exact hnormal
  | setLength newLen flags => exact hset hstep
  | convert =>
    rw [step, if_neg hnot] at hstep
    cases hstep
    exact hnormal

end Steps

/-! ## Constructors -/

section Constructors

variable {cpointer32Bit : Bool} {available : BitVec 32} {array : ArrayObject κ α}

omit [DecidableEq κ] in
theorem alloc_isFast (length : Nat) : (ecmaOpAllocArrayObject length : ArrayObject κ α).isFast = false := by
  show ((propertyFlagWritable ||| propertyVirtual) &&& fastArrayFlag != 0#32) = false
  decide

theorem fastWord_zero : propertyFlagWritable ||| propertyVirtual ||| fastArrayFlag = fastWord 0 := by decide

theorem new_word (length : BitVec 32) :
    (propertyFlagWritable ||| propertyVirtual ||| fastArrayFlag) + length * fastArrayHoleOne = fastWord length.toNat := by
  have hadd := fastWord_add 0 length.toNat
  rw [Nat.zero_add, BitVec.ofNat_toNat, BitVec.setWidth_eq] at hadd
  rw [fastWord_zero, hadd]

omit [DecidableEq κ] in
/-- A short array of a length is all holes. -/
theorem new_fastWith {length : BitVec 32} (hzero : length.toNat ≠ 0) (hmax : length.toNat < fastArrayMaxHoleCount)
    (hmemory : fastArrayAlignLength length.toNat * valueSize ≤ available.toNat) :
    ∃ values, FastWith length.toNat values (ecmaOpNewArrayObject available length : ArrayObject κ α) ∧
      holesBelow values length.toNat = length.toNat := by
  have hlt := available.isLt
  rw [ecmaOpNewArrayObject, ecmaOpAllocArrayObject]
  dsimp only
  rw [new_word, if_neg hzero, if_neg (Nat.not_le.mpr hmax), if_neg (Nat.not_lt.mpr hmemory)]
  rw [fastArrayMaxHoleCount] at hmax
  rw [valueSize] at hmemory
  have hge : length.toNat ≤ fastArrayAlignLength length.toNat := align_ge (by omega)
  have hfree : ∀ i, (List.replicate (fastArrayAlignLength length.toNat) (none : Option α)).getD i none = none := by
    intro i
    rw [List.getD_eq_getElem?_getD, List.getElem?_replicate]
    split
    · rfl
    · rfl
  have hholes := @holesBelow_add α (List.replicate (fastArrayAlignLength length.toNat) none) 0 length.toNat
    (by rw [List.length_replicate]; exact hge) (Nat.zero_le _) (fun i _ _ => hfree i)
  rw [holesBelow_zero, Nat.zero_add, Nat.sub_zero] at hholes
  refine ⟨_, ⟨?_, ⟨by omega, List.length_replicate, fun i _ => hfree i⟩, by omega⟩, hholes⟩
  rw [fastArray, hholes, if_neg hzero]

theorem new_fastUpTo (available length : BitVec 32) :
    FastUpTo fastArrayMaxHoleCount (ecmaOpNewArrayObject available length : ArrayObject κ α) := by
  by_cases hzero : length.toNat = 0
  · rw [ecmaOpNewArrayObject, ecmaOpAllocArrayObject]
    dsimp only
    rw [new_word, if_pos hzero]
    refine fun _ => ⟨0, [], ⟨?_, ⟨by omega, rfl, fun i _ => rfl⟩, by rw [align_zero]; omega⟩, Nat.zero_le _⟩
    rw [hzero]
    rfl
  · by_cases hmax : fastArrayMaxHoleCount ≤ length.toNat
    · rw [ecmaOpNewArrayObject, if_neg hzero, if_pos hmax]
      exact FastUpTo.normal (alloc_isFast _)
    · by_cases hmemory : available.toNat < fastArrayAlignLength length.toNat * valueSize
      · rw [ecmaOpNewArrayObject, if_neg hzero, if_neg hmax, if_pos hmemory]
        exact FastUpTo.normal (@alloc_isFast κ α length.toNat)
      · obtain ⟨values, hfast, hholes⟩ := @new_fastWith κ α available length hzero (by omega) (by omega)
        exact fun _ => ⟨_, values, hfast, by omega⟩

omit [DecidableEq κ] in
/-- An array of values has no holes. -/
theorem values_fastWith {args : List α} (hpos : args.length ≠ 0) (hlt : args.length + 7 < 2 ^ 32)
    (hallocated : fastArrayAlignLength args.length < 2 ^ 30) :
    FastWith args.length (fastValues args) (ArrayObject.mk args.length
      (propertyFlagWritable ||| propertyVirtual ||| fastArrayFlag) (.values (fastValues args)) : ArrayObject κ α) ∧
    holesBelow (fastValues args) args.length = 0 := by
  have hshort := short_of_allocated hlt hallocated
  have hge := align_ge hshort
  have hlength : (args.map some).length = args.length := List.length_map some
  have hholes : holesBelow (fastValues args) args.length = 0 := by
    rw [holesBelow, fastValues, List.take_left' hlength]
    exact holeCount_some args
  refine ⟨⟨?_, ⟨hshort, ?_, ?_⟩, hallocated⟩, hholes⟩
  · rw [fastArray, hholes, if_neg hpos, fastWord_zero]
  · rw [fastValues, List.length_append, hlength, List.length_replicate]
    omega
  · intro i hi
    rw [fastValues, List.getD_eq_getElem?_getD, List.getElem?_append_right (by rw [hlength]; exact hi),
      List.getElem?_replicate]
    split
    · rfl
    · rfl

theorem create_fastUpTo {source : Source α} (hcreate : create cpointer32Bit available source = some array) :
    FastUpTo fastArrayMaxHoleCount array := by
  have hlt := available.isLt
  cases source with
  | length length =>
    cases hcreate
    exact new_fastUpTo available length
  | buffer args fits =>
    cases hcreate
    rw [ecmaOpNewArrayObjectFromBuffer]
    by_cases hzero : args.length = 0
    · rw [if_pos hzero]
      exact new_fastUpTo available 0#32
    · rw [if_neg hzero]
      dsimp only
      by_cases hmemory : fastArrayAlignLength args.length * valueSize = 0 ∨
          available.toNat < fastArrayAlignLength args.length * valueSize
      · rw [if_pos hmemory]
        exact FastUpTo.normal (@alloc_isFast κ α args.length)
      · rw [if_neg hmemory]
        rw [not_or, valueSize] at hmemory
        have halign : args.length + 7 < 2 ^ 32 := by
          rw [fastArrayAlignLength] at hmemory
          omega
        obtain ⟨hfast, hholes⟩ := @values_fastWith κ α args hzero halign (by omega)
        exact fun _ => ⟨_, _, hfast, by rw [hholes]; exact Nat.zero_le _⟩
  | collection collection fits =>
    rw [create, ecmaOpNewArrayObjectFromCollection] at hcreate
    split at hcreate
    · cases hcreate
      exact new_fastUpTo available 0#32
    · rename_i hpos
      split at hcreate
      · cases hcreate
      · rename_i hmemory
        cases hcreate
        rw [valueSize] at fits hmemory
        obtain ⟨hfast, hholes⟩ := @values_fastWith κ α collection hpos (by omega) (by omega)
        exact fun _ => ⟨_, _, hfast, by rw [hholes]; exact Nat.zero_le _⟩

end Constructors

/-! ## Reached arrays -/

section Reached

variable {cpointer32Bit : Bool} {array array' : ArrayObject κ α} {length : Nat} {values : List (Option α)}

omit [DecidableEq κ] in
theorem FastWith.holes (h : FastWith length values array) : array.holes = holesBelow values length := by
  rw [ArrayObject.holes, h.array_eq, h.buffer.getValues]
  rfl

/-- An array in fast mode with at most the limit of holes is dense. -/
theorem FastWith.dense (h : FastWith length values array) (hholes : holesBelow values length ≤ fastArrayMaxHoleCount) :
    Dense cpointer32Bit array := by
  have hshort := h.buffer.short
  have hlength : array.length = length := by rw [h.array_eq]; rfl
  have hmax : fastArrayMaxHoleCount = 2 ^ 16 := rfl
  have huint : uint32Max = 2 ^ 32 - 1 := rfl
  have hstored := h.getHoleCount (by omega)
  refine ⟨by rw [hstored, h.holes], by omega, ⟨by omega, ?_⟩, ?_, ?_, ?_⟩
  · rw [hlength]
    exact align_ge hshort
  · intro available o array' completion hstep hfast
    obtain ⟨length', values', h', hle⟩ :=
      @step_fast κ α _ _ _ _ _ _ (holesBelow values length + fastArrayMaxHoleCount) _ _ h hholes o hstep
        (fun _ _ _ => by omega) (by omega) hfast
    rw [h'.holes, h.holes]
    exact hle
  · intro index hge hindex
    rw [h.holes, hlength]
    rw [hlength] at hge
    split
    · rename_i hfit
      rw [fastArrayAlignLength]
      omega
    · rename_i hfar
      exact fun available value => h.setFar hholes hge (by omega) (by omega)
  · intro newLength hlt hle
    rw [h.holes, hlength]
    rw [hlength] at hlt
    split
    · rename_i hfit
      rw [fastArrayAlignLength]
      omega
    · rename_i hfar
      exact fun available => h.lengthenFar hholes hlt (by omega) (by omega)

omit [DecidableEq κ] in
/-- The items of an array literal in normal mode. -/
theorem appendNormal_isFast {available : BitVec 32} {items : List (Option α)} (hnormal : array.isFast = false)
    (happend : opfuncAppendArray cpointer32Bit available array items = some array') : array'.isFast = false := by
  rw [opfuncAppendArray, if_neg (by rw [hnormal]; exact Bool.false_ne_true), Option.some.injEq] at happend
  rw [← happend]
  refine List.foldlRecOn (motive := fun array : ArrayObject κ α => array.isFast = false) _ _ hnormal ?_
  intro array hfast item _
  cases item.1 with
  | none => exact hfast
  | some value => exact hfast

/-- An array that is reached by the allowed acts has at most the limit of holes. -/
theorem reached_fastUpTo {literal : Bool} (h : Reached cpointer32Bit (Allowed cpointer32Bit) literal array) :
    FastUpTo fastArrayMaxHoleCount array := by
  have hop : ∀ {available : BitVec 32} {array array' : ArrayObject κ α} {o : Op κ α} {completion : Completion},
      FastUpTo fastArrayMaxHoleCount array → Allowed cpointer32Bit array (.op o) →
      step cpointer32Bit available array o = some (array', completion) → FastUpTo fastArrayMaxHoleCount array' := by
    intro available array array' o completion ih hallowed hstep
    cases hfast : array.isFast with
    | false => exact FastUpTo.normal (step_normal hfast hstep)
    | true =>
      obtain ⟨length, values, hbuffer, hle⟩ := ih hfast
      have hmax : fastArrayMaxHoleCount = 2 ^ 16 := rfl
      refine step_fast hbuffer hle hstep ?_ (Nat.le_refl _)
      intro key hkey hsome
      rw [hkey] at hallowed
      rw [← hbuffer.getHoleCount (by omega)]
      exact hallowed hfast hsome
  induction h with
  | create hcreate => exact create_fastUpTo hcreate
  | literal available => exact new_fastUpTo available 0#32
  | @append available items array array' _ hpos hshort hallowed happend ih =>
    cases hfast : array.isFast with
    | false => exact FastUpTo.normal (appendNormal_isFast hfast happend)
    | true =>
      obtain ⟨length, values, hbuffer, hle⟩ := ih hfast
      have hmax : fastArrayMaxHoleCount = 2 ^ 16 := rfl
      have hlength := hbuffer.buffer.short
      cases hbuffer.appendArray hpos (by omega) happend with
      | inl hconverted => exact FastUpTo.normal hconverted.2
      | inr hkept =>
        obtain ⟨hfew, values', hbuffer', hcount⟩ := hkept
        have hroom := hallowed hfast hfew
        rw [hbuffer.getHoleCount (by omega)] at hroom
        exact fun _ => ⟨_, values', hbuffer', by omega⟩
  | spread _ hallowed hstep ih => exact hop ih hallowed hstep
  | finished _ ih => exact ih
  | op _ hallowed hstep ih => exact hop ih hallowed hstep
  | @push available args array array' completion _ hfast hshort hallowed hpush ih =>
    obtain ⟨length, values, hbuffer, hle⟩ := ih hfast
    have hlength : array.length = length := by rw [hbuffer.array_eq]; rfl
    rw [Allowed, hlength] at hallowed
    obtain ⟨values', hbuffer', hcount⟩ := hbuffer.push hallowed hpush
    exact fun _ => ⟨_, values', hbuffer', by omega⟩

/-- Every array in fast mode that is reached by the allowed acts is dense. -/
theorem reached_dense {literal : Bool} (h : Reached cpointer32Bit (Allowed cpointer32Bit) literal array)
    (hfast : array.isFast = true) : Dense cpointer32Bit array := by
  obtain ⟨length, values, hbuffer, hle⟩ := reached_fastUpTo h hfast
  exact hbuffer.dense hle

end Reached

/-- The array literal `[, 5]`. -/
theorem reached_dense_literal : ∃ array : ArrayObject Unit Nat, array.length = 2 ∧ Dense true array := by
  have h := @Reached.append Unit Nat _ true (Allowed true) 4096#32 [none, some 5] _ _ (Reached.literal 4096#32)
    (by decide) (by decide) (fun _ _ => by decide) rfl
  exact ⟨_, rfl, reached_dense h rfl⟩

/-- An array of 65535 holes gets an element behind one more hole, and loses it again: the number of holes is above the
limit. -/
theorem deletion_not_dense : ∃ array : ArrayObject Unit Nat,
    Reached true (fun _ _ => True) false array ∧ array.isFast = true ∧ ¬ Dense true array := by
  have hmax : fastArrayMaxHoleCount = 65536 := rfl
  have hkey : ecmaStringGetArrayIndex (.number 65536#32 : Key Unit) = 65536 := by decide
  obtain ⟨values0, h0, hholes0⟩ := @new_fastWith Unit Nat 0xffffffff#32 65535#32 (by decide) (by decide) (by decide)
  have hlength0 : (65535#32).toNat = 65535 := by decide
  rw [hlength0] at h0 hholes0
  have hreached0 := @Reached.create Unit Nat _ true (fun _ _ => True) 0xffffffff#32 (.length 65535#32) _ rfl
  -- an element behind one more hole
  obtain ⟨array1, set, hset⟩ := @FastWith.setMemory Unit Nat _ _ 65536 _ true 0xffffffff#32 7 _ h0 (by omega) (by omega)
    (by decide)
  obtain ⟨htrue, values1, h1, helement, hholes1⟩ := h0.setBehind (by omega) (by omega) hset
  have hput : step true 0xffffffff#32 (ecmaOpNewArrayObject 0xffffffff#32 65535#32) (.put (.number 65536#32) 7) =
      some (array1, .true) := by
    rw [step, ecmaOpObjectPut, if_pos h0.isFast, hkey]
    dsimp only
    rw [if_neg (by decide), hset, htrue]
    rfl
  have hreached1 := Reached.op hreached0 trivial hput
  -- the element is deleted
  rw [← hkey] at helement
  have hindex : (.number 65536#32 : Key Unit).IsIndex := by decide
  have hdelete := @delete_element Unit Nat _ true _ _ _ _ h1 hindex (by omega) 7 helement
  obtain ⟨h2, hholes2⟩ := h1.delete (show ecmaStringGetArrayIndex (.number 65536#32 : Key Unit) < 65536 + 1 by omega)
    (by rw [helement]; rfl)
  refine ⟨_, @Reached.op _ _ _ _ _ 0#32 (.delete (.number 65536#32)) _ _ _ hreached1 trivial (congrArg some hdelete), h2.isFast, ?_⟩
  intro hdense
  have hlimit := hdense.limit
  rw [h2.getHoleCount (by omega)] at hlimit
  omega

end FastArray
end JJS
