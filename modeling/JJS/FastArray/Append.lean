import JJS.FastArray.Fast

/-!
# JJS.FastArray.Append

Appending to an array in fast mode: `Array.prototype.push` (`ecma-builtin-array-prototype.c`) and the elements of an
array literal (`opcodes.c`), with what they, the writes and the deletions make of the number of holes.
-/

namespace JJS
namespace FastArray

open Strings (directStringMaxImm uint32Max)

variable {κ α : Type}

/-! ## Source -/

/-- The loop that writes items into the buffer, from an index on. -/
def writeFrom (values : List (Option α)) : Nat → List (Option α) → List (Option α)
  | _, [] => values
  | index, item :: items => writeFrom (values.set index item) (index + 1) items

/-- `ecma_builtin_array_prototype_object_push`, for an array in fast mode. -/
def ecmaBuiltinArrayPrototypeObjectPush (available : BitVec 32) (array : ArrayObject κ α) (args : List α) :
    Option (ArrayObject κ α × Completion) :=
  if uint32Max < array.length + args.length then some (array, .rangeError)
  else if args.length = 0 then some (array, .true)
  else do
    let length := array.length
    let array ← ecmaFastArrayExtend available array (length + args.length)
    some ({ array with
      lengthPropAndHoleCount := array.lengthPropAndHoleCount - BitVec.ofNat 32 args.length * fastArrayHoleOne
      propertyList := .values (writeFrom array.propertyList.getValues length (args.map some)) }, .true)

/-- `ECMA_FAST_ARRAY_MAX_NEW_HOLES_COUNT`. -/
def fastArrayMaxNewHolesCount : Nat := 32

/-- The number of the items that are `ECMA_VALUE_ARRAY_HOLE`. -/
def holeCount (items : List (Option α)) : Nat := items.countP Option.isNone

/-- `opfunc_append_array`, for values without a spread element; `none` is `ECMA_VALUE_ARRAY_HOLE`. -/
def opfuncAppendArray (cpointer32Bit : Bool) (available : BitVec 32) (array : ArrayObject κ α)
    (items : List (Option α)) : Option (ArrayObject κ α) :=
  let oldLength := array.length
  let newLength := (oldLength + items.length) % 2 ^ 32
  if array.isFast then do
    let filledHoles := items.length - holeCount items
    let array ← ecmaFastArrayExtend available array newLength
    let array := { array with
      lengthPropAndHoleCount := array.lengthPropAndHoleCount - BitVec.ofNat 32 filledHoles * fastArrayHoleOne
      propertyList := .values (writeFrom array.propertyList.getValues oldLength items) }
    some (if fastArrayMaxNewHolesCount < items.length - filledHoles then ecmaFastArrayConvertToNormal cpointer32Bit array
      else array)
  else
    let array := (items.zipIdx oldLength).foldl (fun array item =>
      match item.1 with
      | none => array
      | some value => ecmaCreateNamedDataProperty cpointer32Bit array (.number (BitVec.ofNat 32 item.2)) value true) array
    some { array with length := newLength }

/-! ## Holes -/

variable {values : List (Option α)} {length n i : Nat} {items : List (Option α)}

theorem holeCount_le (items : List (Option α)) : holeCount items ≤ items.length := List.countP_le_length

theorem holeCount_some (args : List α) : holeCount (args.map some) = 0 := by
  rw [holeCount, List.countP_map, List.countP_eq_zero]
  intro arg _
  exact Bool.false_ne_true

theorem length_writeFrom (values : List (Option α)) (i : Nat) (items : List (Option α)) :
    (writeFrom values i items).length = values.length := by
  induction items generalizing values i with
  | nil => rfl
  | cons item items ih => rw [writeFrom, ih, List.length_set]

theorem getD_writeFrom {j : Nat} (hj : i + items.length ≤ j) : (writeFrom values i items).getD j none = values.getD j none := by
  induction items generalizing values i with
  | nil => rfl
  | cons item items ih =>
    rw [List.length_cons] at hj
    rw [writeFrom, ih (by omega), List.getD_eq_getElem?_getD, List.getElem?_set_ne (by omega), ← List.getD_eq_getElem?_getD]

/-- Items that are written over holes leave their own holes. -/
theorem holesBelow_writeFrom (hfree : ∀ j, i ≤ j → values.getD j none = none) (hle : i + items.length ≤ n)
    (hn : n ≤ values.length) :
    holesBelow (writeFrom values i items) n + items.length = holesBelow values n + holeCount items := by
  induction items generalizing values i with
  | nil => rfl
  | cons item items ih =>
    rw [List.length_cons] at hle
    have hset := holesBelow_set (show i < n by omega) hn item
    rw [hfree i (Nat.le_refl i), Option.isNone_none, if_pos rfl] at hset
    have hrest := @ih (values.set i item) (i + 1)
      (fun j hj => by
        rw [getD_set values i j item (by omega), if_neg (by omega)]
        exact hfree j (by omega)) (by omega) (by rw [List.length_set]; exact hn)
    rw [writeFrom, List.length_cons, holeCount, List.countP_cons, ← holeCount]
    omega

theorem fastWord_sub (holes filled : Nat) :
    fastWord (holes + filled) - BitVec.ofNat 32 filled * fastArrayHoleOne = fastWord holes := by
  rw [← fastWord_add, BitVec.add_sub_cancel]

/-! ## Operations in fast mode -/

theorem isFast_convert (cpointer32Bit : Bool) (array : ArrayObject κ α) :
    (ecmaFastArrayConvertToNormal cpointer32Bit array).isFast = false := by
  rw [ecmaFastArrayConvertToNormal]
  split
  · exact isFast_clearFast _ _
  · exact isFast_clearFast _ _

/-- The fast array with this buffer, which was allocated. -/
structure FastWith (length : Nat) (values : List (Option α)) (array : ArrayObject κ α) : Prop where
  array_eq : array = fastArray length values
  buffer : Buffer length values
  allocated : fastArrayAlignLength length < 2 ^ 30

section

variable {array : ArrayObject κ α}

theorem FastWith.isFast (h : FastWith length values array) : array.isFast = true := by
  rw [h.array_eq]
  exact isFast_fastArray length values

theorem FastWith.getHoleCount (h : FastWith length values array) (hlt : holesBelow values length < 2 ^ 24) :
    array.getHoleCount.toNat = holesBelow values length := by
  rw [h.array_eq]
  exact getHoleCount_fastArray hlt

end

/-- A buffer that was extended fits in the memory. -/
theorem extend_allocated {available : BitVec 32} {array array' : ArrayObject κ α} {newLength : Nat}
    (h : ecmaFastArrayExtend available array newLength = some array') : fastArrayAlignLength newLength < 2 ^ 30 := by
  have hlt := available.isLt
  rw [ecmaFastArrayExtend, valueSize] at h
  split at h
  · cases h
  · omega

theorem short_of_allocated (hlt : length + 7 < 2 ^ 32) (h : fastArrayAlignLength length < 2 ^ 30) : length < 2 ^ 30 := by
  rw [fastArrayAlignLength, Nat.mod_eq_of_lt hlt] at h
  omega

section Operations

variable [DecidableEq κ] {cpointer32Bit : Bool} {available : BitVec 32} {value : α} {array array' : ArrayObject κ α}

theorem FastWith.extend (h : FastWith length values array) {newLength : Nat} (hlt : length < newLength)
    (hmax : newLength + 7 < 2 ^ 32) (hextend : ecmaFastArrayExtend available array newLength = some array') :
    FastWith newLength (extended values length newLength) array' := by
  have hallocated := extend_allocated hextend
  have hshort := short_of_allocated hmax hallocated
  rw [h.array_eq] at hextend
  exact ⟨extend_fastArray h.buffer hlt hshort hextend, buffer_extended h.buffer (by omega) hshort, hallocated⟩

/-- The values of a buffer with items behind the length. -/
def appended (values : List (Option α)) (length : Nat) (items : List (Option α)) : List (Option α) :=
  writeFrom (extended values length (length + items.length)) length items

/-- A buffer is extended, the items are written, and the number of those that are no holes is taken off the count. -/
theorem FastWith.append (h : FastWith length values array) (hpos : items.length ≠ 0)
    (hmax : length + items.length + 7 < 2 ^ 32)
    (hextend : ecmaFastArrayExtend available array (length + items.length) = some array') {filled : Nat}
    (hfilled : filled = items.length - holeCount items) :
    FastWith (length + items.length) (appended values length items) (ArrayObject.mk array'.length
      (array'.lengthPropAndHoleCount - BitVec.ofNat 32 filled * fastArrayHoleOne)
      (.values (writeFrom array'.propertyList.getValues length items)) : ArrayObject κ α) ∧
    holesBelow (appended values length items) (length + items.length) = holesBelow values length + holeCount items := by
  have h' := h.extend (by omega) hmax hextend
  have hsize := h'.buffer.size
  have hge := align_ge h'.buffer.short
  have hcount := holeCount_le items
  have hfree : ∀ j, length ≤ j → (extended values length (length + items.length)).getD j none = none := by
    intro j hj
    rw [getD_extended h.buffer]
    exact h.buffer.spare j hj
  have hholes := holesBelow_writeFrom hfree (Nat.le_refl _) (show length + items.length ≤ _ by omega)
  have hextended := @holes_extended _ _ _ h.buffer (length + items.length) (by omega) h'.buffer.short
  have hlist : array'.propertyList.getValues = extended values length (length + items.length) := by
    rw [h'.array_eq]
    exact h'.buffer.getValues
  rw [← appended] at hholes
  refine ⟨⟨?_, ⟨h'.buffer.short, ?_, ?_⟩, h'.allocated⟩, by omega⟩
  · have hword : holesBelow (extended values length (length + items.length)) (length + items.length) =
        holesBelow (appended values length items) (length + items.length) + filled := by omega
    rw [hlist, h'.array_eq, fastArray, fastArray]
    dsimp only
    rw [hword, fastWord_sub, if_neg (by omega), appended]
  · rw [appended, length_writeFrom]
    exact hsize
  · intro j hj
    rw [appended, getD_writeFrom hj]
    exact hfree j (by omega)

/-- `Array.prototype.push` adds no hole. -/
theorem FastWith.push (h : FastWith length values array) {args : List α} (hmax : length + args.length + 7 < 2 ^ 32)
    {completion : Completion}
    (hpush : ecmaBuiltinArrayPrototypeObjectPush available array args = some (array', completion)) :
    ∃ values', FastWith (length + args.length) values' array' ∧
      holesBelow values' (length + args.length) = holesBelow values length := by
  have hlength : array.length = length := by rw [h.array_eq]; rfl
  rw [ecmaBuiltinArrayPrototypeObjectPush, hlength, if_neg (by rw [uint32Max]; omega)] at hpush
  split at hpush
  · rename_i hnil
    cases hpush
    rw [hnil]
    exact ⟨values, h, rfl⟩
  · obtain ⟨array1, hextend, hpush⟩ := Option.bind_eq_some_iff.mp hpush
    cases hpush
    have hlen : (args.map some).length = args.length := List.length_map some
    rw [← hlen] at hextend hmax ⊢
    obtain ⟨hfast, hholes⟩ := h.append (by omega) hmax hextend (by rw [holeCount_some])
    rw [holeCount_some] at hholes
    exact ⟨_, hfast, hholes⟩

/-- An array literal adds the holes of its items, or leaves fast mode. -/
theorem FastWith.appendArray (h : FastWith length values array) (hpos : items ≠ [])
    (hmax : length + items.length + 7 < 2 ^ 32) (happend : opfuncAppendArray cpointer32Bit available array items = some array') :
    (fastArrayMaxNewHolesCount < holeCount items ∧ array'.isFast = false) ∨
      holeCount items ≤ fastArrayMaxNewHolesCount ∧ ∃ values', FastWith (length + items.length) values' array' ∧
        holesBelow values' (length + items.length) = holesBelow values length + holeCount items := by
  have hlength : array.length = length := by rw [h.array_eq]; rfl
  have hfast : array.isFast = true := by rw [h.array_eq]; exact isFast_fastArray length values
  have hcount := holeCount_le items
  rw [opfuncAppendArray, hfast, if_pos rfl, hlength, Nat.mod_eq_of_lt (by omega)] at happend
  obtain ⟨array1, hextend, happend⟩ := Option.bind_eq_some_iff.mp happend
  obtain ⟨hnew, hholes⟩ := h.append (fun h => hpos (List.eq_nil_of_length_eq_zero h)) hmax hextend rfl
  have hsub : items.length - (items.length - holeCount items) = holeCount items := by omega
  dsimp only at happend
  rw [hsub] at happend
  split at happend
  · rename_i hmany
    cases happend
    exact Or.inl ⟨hmany, isFast_convert _ _⟩
  · rename_i hfew
    cases happend
    exact Or.inr ⟨Nat.le_of_not_lt hfew, _, hnew, hholes⟩

omit [DecidableEq κ] in
/-- The test for too many holes does not wrap. -/
theorem FastWith.tooManyHoles (h : FastWith length values array) (hholes : holesBelow values length ≤ fastArrayMaxHoleCount)
    {newHoles : Nat} (hnew : newHoles < 2 ^ 32) :
    array.tooManyHoles newHoles = true ↔ fastArrayMaxHoleCount < holesBelow values length + newHoles := by
  have hlt : holesBelow values length < 2 ^ 24 := by
    rw [fastArrayMaxHoleCount] at hholes
    omega
  rw [h.array_eq, ArrayObject.tooManyHoles, decide_eq_true_eq, BitVec.lt_def, BitVec.toNat_sub,
    getHoleCount_fastArray hlt, BitVec.toNat_ofNat, BitVec.toNat_ofNat, Nat.mod_eq_of_lt hnew]
  rw [fastArrayMaxHoleCount] at hholes ⊢
  omega

/-- A write below the length adds no hole. -/
theorem FastWith.setBelow (h : FastWith length values array) (hi : i < length) :
    ∃ array', ecmaFastArraySetProperty cpointer32Bit available array i value = some (array', true) ∧
      FastWith length (values.set i (some value)) array' ∧
        holesBelow (values.set i (some value)) length ≤ holesBelow values length := by
  have hge := align_ge h.buffer.short
  have hsize := h.buffer.size
  obtain ⟨hset, hbuffer⟩ := @set_below κ α _ _ _ _ cpointer32Bit available value h.buffer hi
  have hholes := holesBelow_set hi (show length ≤ values.length by omega) (some value)
  rw [Option.isNone_some, if_neg Bool.false_ne_true] at hholes
  rw [h.array_eq]
  exact ⟨_, hset, ⟨rfl, hbuffer, h.allocated⟩, by omega⟩

/-- A write behind the length that passes the test for too many holes adds the holes between. -/
theorem FastWith.setBehind_slots (h : FastWith length values array) (hge : length ≤ i)
    (hmany : array.tooManyHoles (i - length) = false) (hfit : holesBelow values length + (i - length) < 2 ^ 24) {set : Bool}
    (hset : ecmaFastArraySetProperty cpointer32Bit available array i value = some (array', set)) :
    set = true ∧ ∃ values', FastWith (i + 1) values' array' ∧
      (∀ j, values'.getD j none = if j = i then some value else values.getD j none) ∧
      holesBelow values' (i + 1) = holesBelow values length + (i - length) := by
  have halign := align_ge h.buffer.short
  have hshort := h.buffer.short
  have hsize := h.buffer.size
  have hlength : array.length = length := by rw [h.array_eq]; rfl
  have hlist : array.propertyList.getValues = values := by
    rw [h.array_eq]
    exact h.buffer.getValues
  rw [ecmaFastArraySetProperty, hlength, if_neg (by omega)] at hset
  dsimp only at hset
  rw [if_neg (by rw [hmany]; exact Bool.false_ne_true)] at hset
  split at hset
  · -- the spare slots are used
    rename_i hspare
    cases hset
    have hallocated := h.allocated
    have hsame : fastArrayAlignLength (i + 1) = fastArrayAlignLength length := by
      rw [fastArrayAlignLength] at hspare hallocated ⊢
      rw [fastArrayAlignLength]
      omega
    have hall := holesBelow_add (show i + 1 ≤ values.length by omega) (show length ≤ i + 1 by omega)
      (fun j hj _ => h.buffer.spare j hj)
    have hholes := holesBelow_set (show i < i + 1 by omega) (show i + 1 ≤ values.length by omega) (some value)
    rw [h.buffer.spare i hge, Option.isNone_none, if_pos rfl, Option.isNone_some, if_neg Bool.false_ne_true] at hholes
    have hword : holesBelow values length + (i - length) = holesBelow (values.set i (some value)) (i + 1) := by omega
    refine ⟨rfl, values.set i (some value), ⟨?_, ⟨by omega, ?_, ?_⟩, by omega⟩, ?_, hword.symm⟩
    · rw [ArrayObject.store, hlist, h.array_eq, word_fastArray, fastWord_add, hword, fastArray, if_neg (by omega)]
    · rw [List.length_set]
      omega
    · intro j hj
      rw [getD_set values i j _ (by omega), if_neg (by omega)]
      exact h.buffer.spare j (by omega)
    · exact fun j => getD_set values i j _ (by omega)
  · obtain ⟨array1, hextend, hset⟩ := Option.bind_eq_some_iff.mp hset
    cases hset
    have h1 := h.extend (by omega) (by omega) hextend
    have hsize1 := h1.buffer.size
    have halign1 := align_ge h1.buffer.short
    have hextended := @holes_extended _ _ _ h.buffer (i + 1) (by omega) h1.buffer.short
    have hlist1 : array1.propertyList.getValues = extended values length (i + 1) := by
      rw [h1.array_eq]
      exact h1.buffer.getValues
    have hholes := holesBelow_set (show i < i + 1 by omega)
      (show i + 1 ≤ (extended values length (i + 1)).length by omega) (some value)
    rw [getD_extended h.buffer, h.buffer.spare i hge, Option.isNone_none, if_pos rfl, Option.isNone_some,
      if_neg Bool.false_ne_true] at hholes
    have hword : holesBelow (extended values length (i + 1)) (i + 1) =
        holesBelow ((extended values length (i + 1)).set i (some value)) (i + 1) + 1 := by omega
    refine ⟨rfl, (extended values length (i + 1)).set i (some value), ⟨?_, ⟨h1.buffer.short, ?_, ?_⟩, h1.allocated⟩, ?_,
      by omega⟩
    · rw [ArrayObject.store, hlist1, h1.array_eq, word_fastArray, length_fastArray, hword, fastWord_pred, fastArray,
        if_neg (by omega)]
    · rw [List.length_set]
      exact hsize1
    · intro j hj
      rw [getD_set _ i j _ (by omega), if_neg (by omega)]
      exact h1.buffer.spare j (by omega)
    · intro j
      rw [getD_set _ i j _ (by omega), getD_extended h.buffer]

/-- A write behind the length adds the holes between. -/
theorem FastWith.setBehind (h : FastWith length values array) (hge : length ≤ i)
    (hfit : holesBelow values length + (i - length) ≤ fastArrayMaxHoleCount) {set : Bool}
    (hset : ecmaFastArraySetProperty cpointer32Bit available array i value = some (array', set)) :
    set = true ∧ ∃ values', FastWith (i + 1) values' array' ∧ values'.getD i none = some value ∧
      holesBelow values' (i + 1) = holesBelow values length + (i - length) := by
  have hshort := h.buffer.short
  rw [fastArrayMaxHoleCount] at hfit
  have hmany : array.tooManyHoles (i - length) = false := by
    rw [← Bool.not_eq_true, h.tooManyHoles (by rw [fastArrayMaxHoleCount]; omega) (by omega), fastArrayMaxHoleCount]
    omega
  obtain ⟨htrue, values', hfast, hslots, hholes⟩ := h.setBehind_slots hge hmany (by omega) hset
  exact ⟨htrue, values', hfast, by rw [hslots, if_pos rfl], hholes⟩

/-- A write behind the length succeeds when there is memory for it. -/
theorem FastWith.setMemory (h : FastWith length values array) (hge : length ≤ i)
    (hfit : holesBelow values length + (i - length) ≤ fastArrayMaxHoleCount)
    (hmemory : fastArrayAlignLength (i + 1) * valueSize ≤ available.toNat) :
    ∃ array' set, ecmaFastArraySetProperty cpointer32Bit available array i value = some (array', set) := by
  have hshort := h.buffer.short
  have hlength : array.length = length := by rw [h.array_eq]; rfl
  have hmax : fastArrayMaxHoleCount = 2 ^ 16 := rfl
  have hmany : ¬ array.tooManyHoles (i - length) = true := by
    rw [h.tooManyHoles (by omega) (by omega)]
    omega
  rw [ecmaFastArraySetProperty, hlength, if_neg (by omega)]
  dsimp only
  rw [if_neg hmany]
  split
  · exact ⟨_, _, rfl⟩
  · rw [ecmaFastArrayExtend, if_neg (Nat.not_lt.mpr hmemory)]
    exact ⟨_, _, rfl⟩

/-- A write that would leave too many holes converts the array, with no regard to the memory. -/
theorem FastWith.setFar (h : FastWith length values array) (hholes : holesBelow values length ≤ fastArrayMaxHoleCount)
    (hge : length ≤ i) (hi : i < 2 ^ 32) (hfar : fastArrayMaxHoleCount < holesBelow values length + (i - length)) :
    ecmaFastArraySetProperty cpointer32Bit available array i value =
      some (ecmaFastArrayConvertToNormal cpointer32Bit array, false) := by
  have hlength : array.length = length := by rw [h.array_eq]; rfl
  rw [ecmaFastArraySetProperty, hlength, if_neg (by omega)]
  dsimp only
  rw [if_pos ((h.tooManyHoles hholes (by omega)).mpr hfar)]

omit [DecidableEq κ] in
/-- An element that is deleted leaves a hole. -/
theorem FastWith.delete (h : FastWith length values array) (hi : i < length) (hsome : (values.getD i none).isNone = false) :
    FastWith length (values.set i none) (ArrayObject.mk array.length (array.lengthPropAndHoleCount + fastArrayHoleOne)
      (array.store i none) : ArrayObject κ α) ∧
    holesBelow (values.set i none) length = holesBelow values length + 1 := by
  have hge := align_ge h.buffer.short
  have hsize := h.buffer.size
  have hlist : array.propertyList.getValues = values := by
    rw [h.array_eq]
    exact h.buffer.getValues
  have hholes := holesBelow_set hi (show length ≤ values.length by omega) none
  rw [hsome, if_neg Bool.false_ne_true, Option.isNone_none, if_pos rfl, Nat.add_zero] at hholes
  refine ⟨⟨?_, ⟨h.buffer.short, ?_, ?_⟩, h.allocated⟩, hholes⟩
  · rw [ArrayObject.store, hlist, h.array_eq, word_fastArray, length_fastArray, fastWord_succ, ← hholes, fastArray,
      if_neg (by omega)]
  · rw [List.length_set]
    exact hsize
  · intro j hj
    rw [getD_set values i j _ (by omega), if_neg (by omega)]
    exact h.buffer.spare j hj

theorem foldl_word (items : List (Option α)) (holes : Nat) :
    items.foldl (fun word value => if value.isNone then word - fastArrayHoleOne else word)
      (fastWord (holes + holeCount items)) = fastWord holes := by
  induction items with
  | nil => rfl
  | cons item items ih =>
    rw [List.foldl_cons, holeCount, List.countP_cons, ← holeCount]
    cases item with
    | none =>
      rw [Option.isNone_none, if_pos rfl, if_pos rfl, ← Nat.add_assoc, fastWord_pred]
      exact ih
    | some value =>
      rw [Option.isNone_some, if_neg Bool.false_ne_true, if_neg Bool.false_ne_true, Nat.add_zero]
      exact ih

/-- The holes behind the new length are taken off the hole count. -/
theorem FastWith.truncate (h : FastWith length values array) (hlt : n < length) :
    ∃ values', FastWith n values' (ecmaDeleteFastArrayProperties array n) ∧
      holesBelow values' n ≤ holesBelow values length ∧
      ∀ j, values'.getD j none = if j < n then values.getD j none else none := by
  have hge := align_ge h.buffer.short
  have hshort := h.buffer.short
  have hsize := h.buffer.size
  have hallocated := h.allocated
  have hgen : n ≤ fastArrayAlignLength n := align_ge (by omega)
  have halign : fastArrayAlignLength n < 2 ^ 30 := by
    rw [fastArrayAlignLength] at hallocated ⊢
    omega
  have hlist : array.propertyList.getValues = values := by
    rw [h.array_eq]
    exact h.buffer.getValues
  have hsplit : holesBelow values length = holesBelow values n + holeCount ((values.take length).drop n) := by
    have htake : values.take length = values.take n ++ (values.take length).drop n := by
      have hself := List.take_append_drop n (values.take length)
      rw [List.take_take, Nat.min_eq_left (by omega)] at hself
      exact hself.symm
    rw [holesBelow, htake, List.countP_append, ← htake, holesBelow, holeCount]
  have hbelow : holesBelow (values.take n ++ List.replicate (fastArrayAlignLength n - n) none) n = holesBelow values n := by
    rw [holesBelow, List.take_left' (by rw [List.length_take]; omega), holesBelow]
  have hslots : ∀ j, (values.take n ++ List.replicate (fastArrayAlignLength n - n) none).getD j none =
      if j < n then values.getD j none else none := by
    intro j
    rw [List.getD_eq_getElem?_getD, List.getElem?_append, List.length_take, Nat.min_eq_left (by omega)]
    split
    · rename_i hbelow
      rw [List.getElem?_take_of_lt hbelow, List.getD_eq_getElem?_getD]
    · rw [List.getElem?_replicate]
      split
      · rfl
      · rfl
  refine ⟨values.take n ++ List.replicate (fastArrayAlignLength n - n) none, ⟨?_, ⟨by omega, ?_, ?_⟩, halign⟩, by omega,
    hslots⟩
  · rw [ecmaDeleteFastArrayProperties, hlist, h.array_eq, word_fastArray, length_fastArray, hsplit]
    rw [foldl_word, fastArray, hbelow]
  · rw [List.length_append, List.length_take, List.length_replicate]
    omega
  · intro j hj
    rw [hslots, if_neg (Nat.not_lt.mpr hj)]

/-- A new length that would leave too many holes converts the array, with no regard to the memory. -/
theorem FastWith.lengthenFar (h : FastWith length values array) (hholes : holesBelow values length ≤ fastArrayMaxHoleCount)
    (hlt : length < n) (hn : n < 2 ^ 32) (hfar : fastArrayMaxHoleCount < holesBelow values length + (n - length)) :
    ecmaFastArraySetLength cpointer32Bit available array n = some (ecmaFastArrayConvertToNormal cpointer32Bit array) := by
  have hlength : array.length = length := by rw [h.array_eq]; rfl
  rw [ecmaFastArraySetLength, hlength, if_neg (by omega), if_pos ((h.tooManyHoles hholes (by omega)).mpr hfar)]

/-- A new length behind the end that passes the test for too many holes adds the holes between. -/
theorem FastWith.lengthen_slots (h : FastWith length values array) (hlt : length < n)
    (hmany : array.tooManyHoles (n - length) = false) (hfit : holesBelow values length + (n - length) < 2 ^ 24)
    (hset : ecmaFastArraySetLength cpointer32Bit available array n = some array') :
    ∃ values', FastWith n values' array' ∧ (∀ j, values'.getD j none = values.getD j none) ∧
      holesBelow values' n = holesBelow values length + (n - length) := by
  have hshort := h.buffer.short
  have hlength : array.length = length := by rw [h.array_eq]; rfl
  rw [ecmaFastArraySetLength, hlength, if_neg (by omega), if_neg (by rw [hmany]; exact Bool.false_ne_true)] at hset
  have h' := h.extend hlt (by omega) hset
  exact ⟨_, h', getD_extended h.buffer, holes_extended h.buffer (by omega) h'.buffer.short⟩

/-- A new length behind the end adds the holes between. -/
theorem FastWith.lengthen (h : FastWith length values array) (hlt : length < n)
    (hfit : holesBelow values length + (n - length) ≤ fastArrayMaxHoleCount)
    (hset : ecmaFastArraySetLength cpointer32Bit available array n = some array') :
    ∃ values', FastWith n values' array' ∧ holesBelow values' n = holesBelow values length + (n - length) := by
  have hshort := h.buffer.short
  rw [fastArrayMaxHoleCount] at hfit
  have hmany : array.tooManyHoles (n - length) = false := by
    rw [← Bool.not_eq_true, h.tooManyHoles (by rw [fastArrayMaxHoleCount]; omega) (by omega), fastArrayMaxHoleCount]
    omega
  obtain ⟨values', hfast, -, hholes⟩ := h.lengthen_slots hlt hmany (by omega) hset
  exact ⟨values', hfast, hholes⟩

end Operations

end FastArray
end JJS
