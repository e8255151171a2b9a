import Mathlib.Data.List.Basic
import Mathlib.Tactic.Common
import Mathlib.Algebra.GroupWithZero.Nat

/-!
# JJS.Container.Basic

ECMAScript values as the container code sees them, and the routines of `ecma-container-object.c`
over the flat internal buffer of a Map or a Set.

The main fact about values is that `ecma_op_same_value_zero` compares canonical keys
(`ecmaOpSameValueZero_iff`), so a tombstone is never equal to a key.
-/

namespace JJS
namespace Container

/-! ## Values -/

/-- A double: its magnitude counts steps of `2 ^ -1074`, the least positive double. -/
inductive Number where
  | nan
  | infinity (negative : Bool)
  | finite (negative : Bool) (magnitude : Nat)
deriving DecidableEq

namespace Number

/-- `2 ^ 1074` steps make a one. -/
def one : Nat := 2 ^ 1074

/-- The cast of an `ecma_integer_value_t`. -/
def ofInteger (i : Int) : Number := .finite (decide (i < 0)) (i.natAbs * one)

/-- `ecma_number_is_nan`. -/
def isNan (x : Number) : Bool := x == .nan

/-- `ecma_number_is_zero`. -/
def isZero : Number → Bool
  | .finite _ m => m == 0
  | _ => false

/-- `ecma_number_is_negative`. -/
def isNegative : Number → Bool
  | .nan => false
  | .infinity s => s
  | .finite s _ => s

/-- The `==` of two doubles. -/
def eq : Number → Number → Bool
  | .infinity s, .infinity t => s == t
  | .finite s m, .finite t n => m == n && (m == 0 || s == t)
  | _, _ => false

end Number

/-- `ecma_value_t`. A string stands for its characters: a text that has a direct form is always
stored in it, so the two string types never hold one text. Symbols and objects are identities. -/
inductive EcmaValue where
  | empty
  | undefined
  | null
  | boolean (b : Bool)
  | integer (i : Int)
  | float (x : Number)
  | string (chars : List (BitVec 8))
  | symbol (id : Nat)
  | bigint (z : Int)
  | object (id : Nat)
deriving DecidableEq

namespace EcmaValue

/-- `ecma_type_t`. -/
inductive TypeField where
  | direct
  | string
  | float
  | object
  | symbol
  | bigint
deriving DecidableEq

/-- `ecma_get_value_type_field`. -/
def typeField : EcmaValue → TypeField
  | .empty | .undefined | .null | .boolean _ | .integer _ => .direct
  | .float _ => .float
  | .string _ => .string
  | .symbol _ => .symbol
  | .bigint _ => .bigint
  | .object _ => .object

def isObject : EcmaValue → Bool
  | .object _ => true
  | _ => false

/-- `ecma_is_value_number` and `ecma_get_number_from_value`. -/
def number? : EcmaValue → Option Number
  | .integer i => some (.ofInteger i)
  | .float x => some x
  | _ => none

end EcmaValue

/-- `ecma_op_same_value`. -/
def ecmaOpSameValue (x y : EcmaValue) : Bool :=
  if x = y then true
  else if x.typeField ≠ y.typeField ∨ x.typeField = .direct then false
  else
    match x.number?, y.number? with
    | some a, some b =>
      if a.isNan || b.isNan then a.isNan && b.isNan
      else if a.isZero && b.isZero && a.isNegative != b.isNegative then false
      else a.eq b
    | _, _ =>
      match x, y with
      | .string s, .string t => s == t
      | .bigint s, .bigint t => s == t
      | _, _ => false

/-- `ecma_op_same_value_zero`. -/
def ecmaOpSameValueZero (x y : EcmaValue) (strictEquality : Bool) : Bool :=
  match x.number?, y.number? with
  | some a, some b =>
    if strictEquality && a.isNan && b.isNan then false
    else if a.isNan || b.isNan then a.isNan && b.isNan
    else if a.isZero && b.isZero && a.isNegative != b.isNegative then true
    else a.eq b
  | _, _ => ecmaOpSameValue x y

/-- `ecma_op_container_set_noramlize_zero`. -/
def ecmaOpContainerSetNormalizeZero (v : EcmaValue) : EcmaValue :=
  match v.number? with
  | some x => if x.isZero && x.isNegative then .integer 0 else v
  | none => v

/-- The language value of a word: a number has one, whether it is stored as an integer or not. -/
def language : EcmaValue → EcmaValue
  | .integer i => .float (.ofInteger i)
  | v => v

/-- The key a value stands for in a container. -/
def keyOf (v : EcmaValue) : EcmaValue := language (ecmaOpContainerSetNormalizeZero v)

/-- Both zeros are one number as keys. -/
def Number.key (x : Number) : Number := if x.isZero then .finite false 0 else x

theorem keyOf_of_number {v : EcmaValue} {x : Number} (h : v.number? = some x) : keyOf v = .float x.key := by
  have hkey : ecmaOpContainerSetNormalizeZero v = if x.isZero && x.isNegative then .integer 0 else v := by
    rw [ecmaOpContainerSetNormalizeZero, h]
  have hlang : language v = .float x := by
    cases v with
    | integer i => cases h; rfl
    | float y => cases h; rfl
    | _ => cases h
  rw [keyOf, hkey, Number.key]
  cases hz : x.isZero with
  | false => simpa using hlang
  | true =>
    cases hs : x.isNegative with
    | true => simp [language, Number.ofInteger]
    | false =>
      cases x with
      | finite s m =>
        have hm : m = 0 := by simpa [Number.isZero] using hz
        have hs' : s = false := hs
        simpa [hm, hs'] using hlang
      | _ => cases hz

theorem keyOf_of_not_number {v : EcmaValue} (h : v.number? = none) : keyOf v = v := by
  rw [keyOf, ecmaOpContainerSetNormalizeZero, h]
  cases v with
  | integer i => cases h
  | _ => rfl

theorem ecmaOpSameValue_of_not_number {x y : EcmaValue} (h : x.number? = none ∨ y.number? = none) :
    ecmaOpSameValue x y = true ↔ x = y := by
  unfold ecmaOpSameValue
  cases x <;> cases y <;> simp_all [EcmaValue.typeField, EcmaValue.number?]

/-- The comparison of numbers in `ecma_op_same_value_zero`. -/
theorem Number.key_eq_iff (a b : Number) :
    (if a.isNan || b.isNan then a.isNan && b.isNan
      else if a.isZero && b.isZero && a.isNegative != b.isNegative then true
      else a.eq b) = true ↔ a.key = b.key := by
  cases a with
  | nan =>
    cases b with
    | finite t n => by_cases hn : n = 0 <;> simp [hn, isNan, key, isZero]
    | _ => simp [isNan, key, isZero]
  | infinity s =>
    cases b with
    | finite t n => by_cases hn : n = 0 <;> simp [hn, isNan, key, isZero, eq]
    | _ => simp [isNan, key, isZero, eq]
  | finite s m =>
    cases b with
    | finite t n =>
      simp only [isNan, key, isZero, isNegative, eq]
      by_cases hm : m = 0 <;> by_cases hn : n = 0 <;> cases s <;> cases t <;> simp [hm, hn] <;> omega
    | _ => by_cases hm : m = 0 <;> simp [hm, isNan, key, isZero, eq]

/-- SameValueZero is equality of keys. -/
theorem ecmaOpSameValueZero_iff (x y : EcmaValue) :
    ecmaOpSameValueZero x y false = true ↔ keyOf x = keyOf y := by
  cases hx : x.number? with
  | some a =>
    cases hy : y.number? with
    | some b =>
      rw [keyOf_of_number hx, keyOf_of_number hy, EcmaValue.float.injEq, ← Number.key_eq_iff]
      simp [ecmaOpSameValueZero, hx, hy]
    | none =>
      have hne : x ≠ y := by intro h; rw [h, hy] at hx; cases hx
      have hfl : EcmaValue.float a.key ≠ y := by intro h; rw [← h] at hy; cases hy
      rw [keyOf_of_number hx, keyOf_of_not_number hy]
      simp only [ecmaOpSameValueZero, hx, hy, ecmaOpSameValue_of_not_number (Or.inr hy), hne, hfl]
  | none =>
    have hsame : ecmaOpSameValueZero x y false = ecmaOpSameValue x y := by
      simp [ecmaOpSameValueZero, hx]
    rw [hsame, ecmaOpSameValue_of_not_number (Or.inl hx), keyOf_of_not_number hx]
    cases hy : y.number? with
    | some b =>
      have hne : x ≠ y := by intro h; rw [h, hy] at hx; cases hx
      have hfl : x ≠ EcmaValue.float b.key := by intro h; rw [h] at hx; cases hx
      simp only [keyOf_of_number hy, hne, hfl]
    | none => rw [keyOf_of_not_number hy]

/-! ## The internal buffer -/

/-- The class ids (`lit_magic_string_id_t`) of the containers. -/
inductive ContainerId where
  | map
  | set
  | weakMap
  | weakSet
deriving DecidableEq

/-- `lit_id == LIT_MAGIC_STRING_WEAKMAP_UL || lit_id == LIT_MAGIC_STRING_MAP_UL`. -/
def ContainerId.isMap : ContainerId → Bool
  | .map | .weakMap => true
  | .set | .weakSet => false

/-- `ECMA_CONTAINER_FLAGS_WEAK`. -/
def ContainerId.isWeak : ContainerId → Bool
  | .weakMap | .weakSet => true
  | .map | .set => false

/-- The internal buffer: its first element, which tracks the size, and the elements from
`ECMA_CONTAINER_START` on. -/
structure Buffer where
  size : Nat
  items : List EcmaValue

/-- `ecma_op_container_entry_size`: `ECMA_CONTAINER_PAIR_SIZE` or `ECMA_CONTAINER_VALUE_SIZE`. -/
def ecmaOpContainerEntrySize (litId : ContainerId) : Nat := if litId.isMap then 2 else 1

/-- The values of `i` in `for (i = 0; i < entry_count; i += entry_size)`. -/
def entryIndices (litId : ContainerId) (b : Buffer) : List Nat :=
  let entrySize := ecmaOpContainerEntrySize litId
  List.range' 0 ((b.items.length + entrySize - 1) / entrySize) entrySize

/-- `ecma_op_create_internal_buffer`. -/
def ecmaOpCreateInternalBuffer : Buffer := ⟨0, []⟩

/-- `ecma_op_internal_buffer_append`. -/
def ecmaOpInternalBufferAppend (b : Buffer) (key value : EcmaValue) (litId : ContainerId) : Buffer :=
  ⟨b.size + 1, b.items ++ if litId.isMap then [key, value] else [key]⟩

/-- `ecma_op_internal_buffer_update`. -/
def ecmaOpInternalBufferUpdate (b : Buffer) (entry : Nat) (value : EcmaValue) (litId : ContainerId) : Buffer :=
  if litId.isMap then { b with items := b.items.set (entry + 1) value } else b

/-- The key and, in a map, the value of an entry become `ECMA_VALUE_EMPTY`. -/
def emptyEntry (items : List EcmaValue) (entry : Nat) (litId : ContainerId) : List EcmaValue :=
  if litId.isMap then (items.set entry .empty).set (entry + 1) .empty else items.set entry .empty

/-- `ecma_op_internal_buffer_delete`. -/
def ecmaOpInternalBufferDelete (b : Buffer) (entry : Nat) (litId : ContainerId) : Buffer :=
  ⟨b.size - 1, emptyEntry b.items entry litId⟩

/-- `ecma_op_internal_buffer_find`. -/
def ecmaOpInternalBufferFind (b : Buffer) (key : EcmaValue) (litId : ContainerId) : Option Nat :=
  (entryIndices litId b).find? fun i => ecmaOpSameValueZero (b.items.getD i .empty) key false

/-- `ecma_op_container_get_value`. -/
def ecmaOpContainerGetValue (b : Buffer) (entry : Nat) (litId : ContainerId) : EcmaValue :=
  b.items.getD (if litId.isMap then entry + 1 else entry) .empty

/-- `ecma_op_container_free_entries` with the four loops that it selects from; releasing the weak
references of the keys is not part of the buffer. -/
def ecmaOpContainerFreeEntries (b : Buffer) (litId : ContainerId) : Buffer :=
  ⟨0, (entryIndices litId b).foldl
    (fun items i => if items.getD i .empty = .empty then items else emptyEntry items i litId) b.items⟩

/-! ## The routines of the prototypes -/

/-- What a routine returns. -/
inductive Result where
  | value (v : EcmaValue)
  | this
  | typeError
deriving DecidableEq

/-- `ecma_make_uint32_value`. -/
def ecmaMakeUint32Value (n : Nat) : EcmaValue :=
  if n ≤ 0x7ffffff then .integer n else .float (.ofInteger n)

/-- `ecma_op_container_size`. -/
def ecmaOpContainerSize (b : Buffer) : Result := .value (ecmaMakeUint32Value b.size)

/-- `ecma_op_container_get`; only the maps have it. -/
def ecmaOpContainerGet (b : Buffer) (key : EcmaValue) (litId : ContainerId) : Result :=
  if litId = .weakMap ∧ ¬ key.isObject then .value .undefined
  else if b.size = 0 then .value .undefined
  else
    match ecmaOpInternalBufferFind b key litId with
    | none => .value .undefined
    | some entry => .value (b.items.getD (entry + 1) .empty)

/-- `ecma_op_container_has`. -/
def ecmaOpContainerHas (b : Buffer) (key : EcmaValue) (litId : ContainerId) : Result :=
  if litId.isWeak ∧ ¬ key.isObject then .value (.boolean false)
  else if b.size = 0 then .value (.boolean false)
  else .value (.boolean (ecmaOpInternalBufferFind b key litId).isSome)

/-- `ecma_op_container_set`. -/
def ecmaOpContainerSet (b : Buffer) (key value : EcmaValue) (litId : ContainerId) : Result × Buffer :=
  if litId.isWeak ∧ ¬ key.isObject then (.typeError, b)
  else
    match ecmaOpInternalBufferFind b key litId with
    | none => (.this, ecmaOpInternalBufferAppend b (ecmaOpContainerSetNormalizeZero key) value litId)
    | some entry => (.this, ecmaOpInternalBufferUpdate b entry (ecmaOpContainerSetNormalizeZero value) litId)

/-- `ecma_op_container_clear`. -/
def ecmaOpContainerClear (b : Buffer) (litId : ContainerId) : Result × Buffer :=
  (.value .undefined, ecmaOpContainerFreeEntries b litId)

/-- `ecma_op_container_delete`. -/
def ecmaOpContainerDelete (b : Buffer) (key : EcmaValue) (litId : ContainerId) : Result × Buffer :=
  match ecmaOpInternalBufferFind b key litId with
  | none => (.value (.boolean false), b)
  | some entry => (.value (.boolean true), ecmaOpInternalBufferDelete b entry litId)

/-- The entries `ecma_op_container_foreach` visits, each with its key and its value. -/
def visited (b : Buffer) (litId : ContainerId) : List (EcmaValue × EcmaValue) :=
  (entryIndices litId b).filterMap fun i =>
    if b.items.getD i .empty = .empty then none
    else some (b.items.getD i .empty, ecmaOpContainerGetValue b i litId)

end Container
end JJS
