import JJS.Strings.Basic

/-!
# JJS.FastArray.Basic

Arrays and their fast mode (`ecma-array-object.c`, with what it uses of `ecma-helpers.c`, `ecma-objects.c` and
`ecma-objects-general.c`): the constructors, data property writes, deletions, changes of the length and the
conversion to a property list.

A heap size is a number of 32 bits, and so is the size of the largest block that the heap can give at some step:
an operation takes it as `available`. A buffer that cannot be allocated ends the program (`none`) or, where the
source tests for it, leaves the array in normal mode; property pairs are always allocated. Property lists are
searched as they are when `JJS_LCACHE` and `JJS_PROPERTY_HASHMAP` are off. Arrays are extensible, and the
properties other than `length` are data properties that are enumerable and writable.
-/

namespace JJS
namespace FastArray

open Strings (directStringMaxImm uint32Max)

/-- The bits of a `jmem_cpointer_t`. -/
def cpointerBits (cpointer32Bit : Bool) : Nat := if cpointer32Bit then 32 else 16

/-! ## Property names -/

/-- A property other than `length`: one whose name is the numeral of a number, or has any other name. -/
inductive Key (κ : Type) where
  | number (uint32Number : BitVec 32)
  | other (name : κ)
  deriving DecidableEq

/-- A name as it stands in a property pair: `ECMA_DIRECT_STRING_UINT` with the number in place of a pointer, a pointer
to a string whose descriptor has the number, or another name. -/
inductive Name (κ : Type) where
  | uint (cp : Nat)
  | uint32InDesc (number : Nat)
  | other (name : κ)
  deriving DecidableEq

variable {κ α : Type}

/-- `ecma_new_ecma_string_from_uint32`, then `ecma_string_to_property_name`. -/
def Key.toName (cpointer32Bit : Bool) : Key κ → Name κ
  | .number n =>
    if n.toNat ≤ directStringMaxImm cpointer32Bit then .uint n.toNat else .uint32InDesc n.toNat
  | .other name => .other name

/-- `ecma_string_get_array_index`; `uint32Max` is `ECMA_STRING_NOT_ARRAY_INDEX`. -/
def ecmaStringGetArrayIndex : Key κ → Nat
  | .number n => n.toNat
  | .other _ => uint32Max

/-- `ecma_string_get_property_index`. -/
def ecmaStringGetPropertyIndex : Name κ → Nat
  | .uint cp => cp
  | .uint32InDesc number => number
  | .other _ => uint32Max

/-! ## Property lists -/

structure Property (κ α : Type) where
  name : Name κ
  value : α
  configurable : Bool

/-- `ecma_property_pair_t`; a slot without a property has type `ECMA_PROPERTY_TYPE_DELETED`. -/
structure PropertyPair (κ α : Type) where
  first : Option (Property κ α)
  second : Option (Property κ α)

/-- A slot that holds the property of the name. -/
def slotIs [DecidableEq κ] (name : Name κ) (slot : Option (Property κ α)) : Bool :=
  slot.any fun property => property.name = name

/-- `ecma_find_named_property`. -/
def ecmaFindNamedProperty [DecidableEq κ] (name : Name κ) : List (PropertyPair κ α) → Option (Property κ α)
  | [] => none
  | pair :: pairs =>
    if slotIs name pair.first then pair.first
    else if slotIs name pair.second then pair.second
    else ecmaFindNamedProperty name pairs

/-- `ecma_create_property`: the first slot is used again when it is free. -/
def ecmaCreateProperty (property : Property κ α) : List (PropertyPair κ α) → List (PropertyPair κ α)
  | ⟨none, second⟩ :: pairs => ⟨some property, second⟩ :: pairs
  | pairs => ⟨none, some property⟩ :: pairs

/-- A change of the property that was found, which keeps its name. -/
def updateProperty [DecidableEq κ] (name : Name κ) (update : Property κ α → Property κ α) :
    List (PropertyPair κ α) → List (PropertyPair κ α)
  | [] => []
  | pair :: pairs =>
    if slotIs name pair.first then ⟨pair.first.map update, pair.second⟩ :: pairs
    else if slotIs name pair.second then ⟨pair.first, pair.second.map update⟩ :: pairs
    else pair :: updateProperty name update pairs

/-- The pair stays in the list while one of its slots is used. -/
def linkPair (pair : PropertyPair κ α) (pairs : List (PropertyPair κ α)) : List (PropertyPair κ α) :=
  if pair.first.isNone && pair.second.isNone then pairs else pair :: pairs

/-- `ecma_delete_property`, for the property that was found. -/
def ecmaDeleteProperty [DecidableEq κ] (name : Name κ) : List (PropertyPair κ α) → List (PropertyPair κ α)
  | [] => []
  | pair :: pairs =>
    if slotIs name pair.first then linkPair ⟨none, pair.second⟩ pairs
    else if slotIs name pair.second then linkPair ⟨pair.first, none⟩ pairs
    else pair :: ecmaDeleteProperty name pairs

/-! ## Array objects -/

/-- What `u1.property_list_cp` refers to: nothing, the buffer of a fast array, where `none` is
`ECMA_VALUE_ARRAY_HOLE`, or the first of some property pairs. -/
inductive PropertyList (κ α : Type) where
  | null
  | values (values : List (Option α))
  | pairs (head : PropertyPair κ α) (tail : List (PropertyPair κ α))

/-- The buffer at the address. -/
def PropertyList.getValues : PropertyList κ α → List (Option α)
  | .values items => items
  | .null | .pairs _ _ => []

/-- The property pairs from the address on. -/
def PropertyList.getPairs : PropertyList κ α → List (PropertyPair κ α)
  | .pairs head tail => head :: tail
  | .null | .values _ => []

/-- `ECMA_SET_POINTER` with the first of the pairs. -/
def PropertyList.ofPairs : List (PropertyPair κ α) → PropertyList κ α
  | [] => .null
  | head :: tail => .pairs head tail

/-- The array part of an object. -/
structure ArrayObject (κ α : Type) where
  length : Nat
  lengthPropAndHoleCount : BitVec 32
  propertyList : PropertyList κ α

/-- `ECMA_PROPERTY_FLAG_WRITABLE`. -/
def propertyFlagWritable : BitVec 32 := 0x04#32

/-- `ECMA_PROPERTY_VIRTUAL`. -/
def propertyVirtual : BitVec 32 := 0xe0#32

/-- `ECMA_FAST_ARRAY_FLAG`. -/
def fastArrayFlag : BitVec 32 := 0x08#32

/-- `ECMA_FAST_ARRAY_HOLE_SHIFT`. -/
def fastArrayHoleShift : Nat := 8

/-- `ECMA_FAST_ARRAY_HOLE_ONE`. -/
def fastArrayHoleOne : BitVec 32 := 1#32 <<< fastArrayHoleShift

/-- `ECMA_FAST_ARRAY_MAX_HOLE_COUNT`. -/
def fastArrayMaxHoleCount : Nat := 2 ^ 16

/-- `ECMA_FAST_ARRAY_ALIGN_LENGTH`. -/
def fastArrayAlignLength (length : Nat) : Nat := (length + 7) % 2 ^ 32 / 8 * 8

/-- `sizeof (ecma_value_t)`. -/
def valueSize : Nat := 4

/-- `ecma_op_array_is_fast_array`. -/
def ArrayObject.isFast (array : ArrayObject κ α) : Bool := array.lengthPropAndHoleCount &&& fastArrayFlag != 0#32

/-- Whether `length` is writable. -/
def ArrayObject.isWritable (array : ArrayObject κ α) : Bool :=
  array.lengthPropAndHoleCount &&& propertyFlagWritable != 0#32

/-- `ecma_fast_array_get_hole_count`. -/
def ArrayObject.getHoleCount (array : ArrayObject κ α) : BitVec 32 :=
  array.lengthPropAndHoleCount >>> fastArrayHoleShift

/-! ## Constructors -/

/-- `ecma_op_alloc_array_object`. -/
def ecmaOpAllocArrayObject (length : Nat) : ArrayObject κ α where
  length := length
  lengthPropAndHoleCount := propertyFlagWritable ||| propertyVirtual
  propertyList := .null

/-- `ecma_op_new_array_object`. -/
def ecmaOpNewArrayObject (available length : BitVec 32) : ArrayObject κ α :=
  let array : ArrayObject κ α := ecmaOpAllocArrayObject length.toNat
  let alignedLength := fastArrayAlignLength length.toNat
  let word := (array.lengthPropAndHoleCount ||| fastArrayFlag) + length * fastArrayHoleOne
  if length.toNat = 0 then { array with lengthPropAndHoleCount := word }
  else if fastArrayMaxHoleCount ≤ length.toNat then array
  else if available.toNat < alignedLength * valueSize then array
  else
    { array with
      lengthPropAndHoleCount := word
      propertyList := .values (List.replicate alignedLength none) }

/-- The array without a buffer of `ecma_op_new_array_object_from_buffer`: the properties are created one by one. -/
def createProperties (cpointer32Bit : Bool) : Nat → List α → List (PropertyPair κ α) → List (PropertyPair κ α)
  | _, [], pairs => pairs
  | i, arg :: args, pairs =>
    createProperties cpointer32Bit (i + 1) args
      (ecmaCreateProperty ⟨(Key.number (BitVec.ofNat 32 i)).toName cpointer32Bit, arg, true⟩ pairs)

/-- The buffer for values that leave the slots behind them free. -/
def fastValues (args : List α) : List (Option α) :=
  args.map some ++ List.replicate (fastArrayAlignLength args.length - args.length) none

/-- `ecma_op_new_array_object_from_buffer`. -/
def ecmaOpNewArrayObjectFromBuffer (cpointer32Bit : Bool) (available : BitVec 32) (args : List α) : ArrayObject κ α :=
  if args.length = 0 then ecmaOpNewArrayObject available 0#32
  else
    let array : ArrayObject κ α := ecmaOpAllocArrayObject args.length
    let size := fastArrayAlignLength args.length * valueSize
    -- there is no block of size zero either
    if size = 0 ∨ available.toNat < size then
      { array with propertyList := .ofPairs (createProperties cpointer32Bit 0 args []) }
    else
      { array with
        lengthPropAndHoleCount := array.lengthPropAndHoleCount ||| fastArrayFlag
        propertyList := .values (fastValues args) }

/-- `ecma_op_new_array_object_from_collection`. -/
def ecmaOpNewArrayObjectFromCollection (available : BitVec 32) (collection : List α) : Option (ArrayObject κ α) :=
  if collection.length = 0 then some (ecmaOpNewArrayObject available 0#32)
  else if available.toNat < fastArrayAlignLength collection.length * valueSize then none
  else
    let array : ArrayObject κ α := ecmaOpAllocArrayObject collection.length
    some { array with
      lengthPropAndHoleCount := array.lengthPropAndHoleCount ||| fastArrayFlag
      propertyList := .values (fastValues collection) }

/-! ## Conversion -/

/-- The loop of `ecma_fast_array_convert_to_normal` from `index - 1` down; the pair at the head of `pairs` is the one
that was allocated last, and `propIndex` is the slot for the next property. -/
def convertLoop (cpointer32Bit : Bool) (values : List (Option α)) :
    (index : Nat) → (propIndex : Bool) → List (PropertyPair κ α) → List (PropertyPair κ α)
  | 0, _, pairs => pairs
  | index + 1, propIndex, pairs =>
    match values.getD index none with
    | none => convertLoop cpointer32Bit values index propIndex pairs
    | some value =>
      -- the index is narrowed to a compressed pointer
      let property := ⟨.uint (index % 2 ^ cpointerBits cpointer32Bit), value, true⟩
      match propIndex, pairs with
      | false, pair :: pairs => convertLoop cpointer32Bit values index true (⟨some property, pair.second⟩ :: pairs)
      | _, pairs => convertLoop cpointer32Bit values index false (⟨none, some property⟩ :: pairs)

/-- `ecma_fast_array_convert_to_normal`; the index starts as the `int32_t` of `length - 1`. -/
def ecmaFastArrayConvertToNormal (cpointer32Bit : Bool) (array : ArrayObject κ α) : ArrayObject κ α :=
  let word := array.lengthPropAndHoleCount &&& ~~~fastArrayFlag
  match array.propertyList with
  | .null => { array with lengthPropAndHoleCount := word }
  | list =>
    let index := (BitVec.ofNat 32 array.length - 1#32).toInt
    { array with
      lengthPropAndHoleCount := word
      propertyList := .ofPairs (convertLoop cpointer32Bit list.getValues (index + 1).toNat true []) }

/-! ## Fast mode -/

/-- `ecma_fast_array_extend`. -/
def ecmaFastArrayExtend (available : BitVec 32) (array : ArrayObject κ α) (newLength : Nat) :
    Option (ArrayObject κ α) :=
  let newLengthAligned := fastArrayAlignLength newLength
  if available.toNat < newLengthAligned * valueSize then none
  else
    some {
      length := newLength
      lengthPropAndHoleCount :=
        array.lengthPropAndHoleCount + BitVec.ofNat 32 (newLength - array.length) * fastArrayHoleOne
      propertyList := .values (array.propertyList.getValues.take array.length ++
        List.replicate (newLengthAligned - array.length) none) }

/-- The test for too many new holes, in unsigned arithmetic. -/
def ArrayObject.tooManyHoles (array : ArrayObject κ α) (newHoles : Nat) : Bool :=
  BitVec.ofNat 32 fastArrayMaxHoleCount - array.getHoleCount < BitVec.ofNat 32 newHoles

/-- The buffer with the value at the index. -/
def ArrayObject.store (array : ArrayObject κ α) (index : Nat) (value : Option α) : PropertyList κ α :=
  .values (array.propertyList.getValues.set index value)

/-- `ecma_fast_array_set_property`. -/
def ecmaFastArraySetProperty (cpointer32Bit : Bool) (available : BitVec 32) (array : ArrayObject κ α) (index : Nat)
    (value : α) : Option (ArrayObject κ α × Bool) :=
  if index < array.length then
    let word :=
      if (array.propertyList.getValues.getD index none).isNone then array.lengthPropAndHoleCount - fastArrayHoleOne
      else array.lengthPropAndHoleCount
    some ({ array with lengthPropAndHoleCount := word, propertyList := array.store index (some value) }, true)
  else
    let newHoles := index - array.length
    if array.tooManyHoles newHoles then some (ecmaFastArrayConvertToNormal cpointer32Bit array, false)
    else
      let newLength := index + 1
      if index < fastArrayAlignLength array.length then
        some ({
          length := newLength
          lengthPropAndHoleCount := array.lengthPropAndHoleCount + BitVec.ofNat 32 newHoles * fastArrayHoleOne
          propertyList := array.store index (some value) }, true)
      else do
        let array ← ecmaFastArrayExtend available array newLength
        some ({ array with
          lengthPropAndHoleCount := array.lengthPropAndHoleCount - fastArrayHoleOne
          propertyList := array.store index (some value) }, true)

/-- `ecma_array_object_delete_property`. -/
def ecmaArrayObjectDeleteProperty (array : ArrayObject κ α) (key : Key κ) : ArrayObject κ α × Bool :=
  if !array.isFast then (array, false)
  else
    let index := ecmaStringGetArrayIndex key
    if (array.propertyList.getValues.getD index none).isNone then (array, true)
    else
      ({ array with
        lengthPropAndHoleCount := array.lengthPropAndHoleCount + fastArrayHoleOne
        propertyList := array.store index none }, true)

/-- `ecma_delete_fast_array_properties`. -/
def ecmaDeleteFastArrayProperties (array : ArrayObject κ α) (newLength : Nat) : ArrayObject κ α :=
  let values := array.propertyList.getValues
  let word := ((values.take array.length).drop newLength).foldl
    (fun word value => if value.isNone then word - fastArrayHoleOne else word) array.lengthPropAndHoleCount
  { length := newLength
    lengthPropAndHoleCount := word
    propertyList :=
      if newLength = 0 then .null
      else .values (values.take newLength ++ List.replicate (fastArrayAlignLength newLength - newLength) none) }

/-- `ecma_fast_array_set_length`. -/
def ecmaFastArraySetLength (cpointer32Bit : Bool) (available : BitVec 32) (array : ArrayObject κ α) (newLength : Nat) :
    Option (ArrayObject κ α) :=
  if newLength = array.length then some array
  else if array.tooManyHoles (newLength - array.length) then some (ecmaFastArrayConvertToNormal cpointer32Bit array)
  else ecmaFastArrayExtend available array newLength

/-! ## Operations -/

/-- How an operation completes: with `true`, or with the error that the source raises. -/
inductive Completion where
  | true
  | rangeError
  | redefinition
  | readonlyAssignment
  | notConfigurable
  deriving DecidableEq

section Operations

variable [DecidableEq κ] (cpointer32Bit : Bool) (available : BitVec 32)

/-- `ecma_op_object_get_own_property`, for a property other than `length`: its value, and whether it is
configurable. -/
def ecmaOpObjectGetOwnProperty (array : ArrayObject κ α) (key : Key κ) : Option (α × Bool) :=
  if array.isFast then
    let index := ecmaStringGetArrayIndex key
    if index ≠ uint32Max ∧ index < array.length then
      (array.propertyList.getValues.getD index none).map fun value => (value, Bool.true)
    else none
  else
    (ecmaFindNamedProperty (key.toName cpointer32Bit) array.propertyList.getPairs).map fun property =>
      (property.value, property.configurable)

/-- `ecma_op_general_object_delete`. -/
def ecmaOpGeneralObjectDelete (array : ArrayObject κ α) (key : Key κ) : ArrayObject κ α × Completion :=
  match ecmaOpObjectGetOwnProperty cpointer32Bit array key with
  | none => (array, .true)
  | some (_, configurable) =>
    if !configurable then (array, .notConfigurable)
    else
      let (array, deleted) := ecmaArrayObjectDeleteProperty array key
      if deleted then (array, .true)
      else
        ({ array with
          propertyList := .ofPairs (ecmaDeleteProperty (key.toName cpointer32Bit) array.propertyList.getPairs) }, .true)

/-- `ecma_create_named_data_property`. -/
def ecmaCreateNamedDataProperty (array : ArrayObject κ α) (key : Key κ) (value : α) (configurable : Bool) :
    ArrayObject κ α :=
  { array with
    propertyList := .ofPairs
      (ecmaCreateProperty ⟨key.toName cpointer32Bit, value, configurable⟩ array.propertyList.getPairs) }

/-- `ecma_op_general_object_define_own_property`, for a descriptor with a value and all the attributes. -/
def ecmaOpGeneralObjectDefineOwnProperty (array : ArrayObject κ α) (key : Key κ) (value : α) (configurable : Bool) :
    ArrayObject κ α × Bool :=
  let name := key.toName cpointer32Bit
  let pairs := array.propertyList.getPairs
  match ecmaFindNamedProperty name pairs with
  | none => (ecmaCreateNamedDataProperty cpointer32Bit array key value configurable, Bool.true)
  | some property =>
    if !property.configurable && configurable then (array, false)
    else
      ({ array with
        propertyList := .ofPairs (updateProperty name
          (fun property => { property with value := value, configurable := configurable }) pairs) }, Bool.true)

/-- The part of `ecma_op_array_object_define_own_property` for an array in normal mode. -/
def defineOwnPropertyNormal (array : ArrayObject κ α) (key : Key κ) (value : α) (configurable : Bool) :
    ArrayObject κ α × Completion :=
  let index := ecmaStringGetArrayIndex key
  if index = uint32Max then
    let (array, defined) := ecmaOpGeneralObjectDefineOwnProperty cpointer32Bit array key value configurable
    (array, if defined then .true else .redefinition)
  else
    let updateLength := decide (array.length ≤ index)
    if updateLength && !array.isWritable then (array, .redefinition)
    else
      let (array, defined) := ecmaOpGeneralObjectDefineOwnProperty cpointer32Bit array key value configurable
      if !defined then (array, .redefinition)
      else if updateLength then ({ array with length := index + 1 }, .true)
      else (array, .true)

/-- `ecma_op_array_object_define_own_property`, for a property other than `length` and an enumerable and writable
data property. It is configurable when the descriptor has `ECMA_FAST_ARRAY_DATA_PROP_FLAGS`. -/
def ecmaOpArrayObjectDefineOwnProperty (array : ArrayObject κ α) (key : Key κ) (value : α) (configurable : Bool) :
    Option (ArrayObject κ α × Completion) :=
  if array.isFast then
    if configurable then
      let index := ecmaStringGetArrayIndex key
      if index = uint32Max then
        some (defineOwnPropertyNormal cpointer32Bit (ecmaFastArrayConvertToNormal cpointer32Bit array) key value configurable)
      else do
        let (array, set) ← ecmaFastArraySetProperty cpointer32Bit available array index value
        if set then some (array, .true)
        else some (defineOwnPropertyNormal cpointer32Bit array key value configurable)
    else some (defineOwnPropertyNormal cpointer32Bit (ecmaFastArrayConvertToNormal cpointer32Bit array) key value configurable)
  else some (defineOwnPropertyNormal cpointer32Bit array key value configurable)

/-- The part of `ecma_op_object_put_with_receiver` for an array in normal mode, which is the receiver too. No object of
the prototype chain has the property. -/
def putNormal (array : ArrayObject κ α) (key : Key κ) (value : α) : ArrayObject κ α × Completion :=
  let name := key.toName cpointer32Bit
  let pairs := array.propertyList.getPairs
  match ecmaFindNamedProperty name pairs with
  | some _ =>
    ({ array with
      propertyList := .ofPairs (updateProperty name (fun property => { property with value := value }) pairs) }, .true)
  | none =>
    let index := ecmaStringGetArrayIndex key
    if index ≠ uint32Max ∧ array.length ≤ index then
      if !array.isWritable then (array, .readonlyAssignment)
      else (ecmaCreateNamedDataProperty cpointer32Bit { array with length := index + 1 } key value Bool.true, .true)
    else (ecmaCreateNamedDataProperty cpointer32Bit array key value Bool.true, .true)

/-- `ecma_op_object_put`, for a property other than `length`. -/
def ecmaOpObjectPut (array : ArrayObject κ α) (key : Key κ) (value : α) : Option (ArrayObject κ α × Completion) :=
  if array.isFast then
    let index := ecmaStringGetArrayIndex key
    if index = uint32Max then
      some (putNormal cpointer32Bit (ecmaFastArrayConvertToNormal cpointer32Bit array) key value)
    else do
      let (array, set) ← ecmaFastArraySetProperty cpointer32Bit available array index value
      if set then some (array, .true) else some (putNormal cpointer32Bit array key value)
  else some (putNormal cpointer32Bit array key value)

/-- The first walk of `ecma_delete_array_properties`: the new length after a slot, raised above a property that is not
configurable. -/
def raiseLength (oldLength newLength : Nat) (slot : Option (Property κ α)) : Nat :=
  match slot with
  | none => newLength
  | some property =>
    let index := ecmaStringGetPropertyIndex property.name
    if !property.configurable ∧ index < oldLength ∧ newLength ≤ index then index + 1 else newLength

/-- A slot after the second walk of `ecma_delete_array_properties`. -/
def deleteSlot (oldLength newLength : Nat) (slot : Option (Property κ α)) : Option (Property κ α) :=
  slot.filter fun property =>
    let index := ecmaStringGetPropertyIndex property.name
    !(property.configurable && decide (index < oldLength ∧ newLength ≤ index))

/-- `ecma_delete_array_properties`. -/
def ecmaDeleteArrayProperties (array : ArrayObject κ α) (newLength oldLength : Nat) : ArrayObject κ α × Nat :=
  if array.isFast then (ecmaDeleteFastArrayProperties array newLength, newLength)
  else
    let pairs := array.propertyList.getPairs
    let newLength := pairs.foldl
      (fun length pair => raiseLength oldLength (raiseLength oldLength length pair.first) pair.second) newLength
    if newLength = oldLength then (array, newLength)
    else
      let delete := fun pair : PropertyPair κ α =>
        (⟨deleteSlot oldLength newLength pair.first, deleteSlot oldLength newLength pair.second⟩ : PropertyPair κ α)
      ({ array with propertyList := .ofPairs (pairs.foldr (fun pair => linkPair (delete pair)) []) }, newLength)

/-- The flags of a descriptor for `length`: whether it makes the property configurable, enumerable or an accessor, and
the value of `JJS_PROP_IS_WRITABLE` where that is defined. -/
structure LengthFlags where
  refused : Bool
  writable : Option Bool

/-- `length` is made read-only, which takes an array in normal mode. -/
def makeLengthReadOnly (array : ArrayObject κ α) : ArrayObject κ α :=
  let array := if array.isFast then ecmaFastArrayConvertToNormal cpointer32Bit array else array
  { array with lengthPropAndHoleCount := array.lengthPropAndHoleCount &&& ~~~propertyFlagWritable }

/-- `ecma_op_array_object_set_length`, once the value is a number; `none` is one that is not a `uint32_t`. -/
def ecmaOpArrayObjectSetLength (array : ArrayObject κ α) (newLen : Option (BitVec 32)) (flags : LengthFlags) :
    Option (ArrayObject κ α × Completion) :=
  match newLen with
  | none => some (array, .rangeError)
  | some newLen =>
    if flags.refused then some (array, .redefinition)
    else if newLen.toNat = array.length then
      match flags.writable with
      | none => some (array, .true)
      | some false => some (makeLengthReadOnly cpointer32Bit array, .true)
      | some Bool.true => some (array, if array.isWritable then .true else .redefinition)
    else if !array.isWritable then some (array, .redefinition)
    else do
      let oldLen := array.length
      let (array, currentLen) ←
        if newLen.toNat < oldLen then some (ecmaDeleteArrayProperties array newLen.toNat oldLen)
        else if array.isFast then do
          let array ← ecmaFastArraySetLength cpointer32Bit available array newLen.toNat
          some (array, newLen.toNat)
        else some (array, newLen.toNat)
      let array := { array with length := currentLen }
      let array := if flags.writable = some false then makeLengthReadOnly cpointer32Bit array else array
      some (array, if currentLen = newLen.toNat then .true else .redefinition)

/-- `ecma_op_object_put`, for `length`. -/
def putLength (array : ArrayObject κ α) (newLen : Option (BitVec 32)) : Option (ArrayObject κ α × Completion) :=
  if array.isWritable then
    ecmaOpArrayObjectSetLength cpointer32Bit available array newLen { refused := false, writable := none }
  else some (array, .readonlyAssignment)

/-! ## Runs -/

/-- What is done to an array. Whatever converts an array that is not otherwise changed (a change of its prototype or of
its extensibility) is `convert`. -/
inductive Op (κ α : Type) where
  | put (key : Key κ) (value : α)
  | define (key : Key κ) (value : α) (configurable : Bool)
  | delete (key : Key κ)
  | putLength (newLen : Option (BitVec 32))
  | setLength (newLen : Option (BitVec 32)) (flags : LengthFlags)
  | convert

/-- The step of an operation; `none` when the memory is exhausted, which ends the program. -/
def step (array : ArrayObject κ α) : Op κ α → Option (ArrayObject κ α × Completion)
  | .put key value => ecmaOpObjectPut cpointer32Bit available array key value
  | .define key value configurable =>
    ecmaOpArrayObjectDefineOwnProperty cpointer32Bit available array key value configurable
  | .delete key => some (ecmaOpGeneralObjectDelete cpointer32Bit array key)
  | .putLength newLen => putLength cpointer32Bit available array newLen
  | .setLength newLen flags => ecmaOpArrayObjectSetLength cpointer32Bit available array newLen flags
  | .convert =>
    some (if array.isFast then ecmaFastArrayConvertToNormal cpointer32Bit array else array, .true)

end Operations

/-- What an array is created from. The number of arguments is of 32 bits, and a collection is in a block of the heap. -/
inductive Source (α : Type) where
  | length (length : BitVec 32)
  | buffer (args : List α) (fits : args.length < 2 ^ 32)
  | collection (collection : List α) (fits : collection.length * valueSize < 2 ^ 32)

/-- The constructor for the source. -/
def create (cpointer32Bit : Bool) (available : BitVec 32) : Source α → Option (ArrayObject κ α)
  | .length length => some (ecmaOpNewArrayObject available length)
  | .buffer args _ => some (ecmaOpNewArrayObjectFromBuffer cpointer32Bit available args)
  | .collection collection _ => ecmaOpNewArrayObjectFromCollection available collection

end FastArray
end JJS
