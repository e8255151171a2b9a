import Mathlib.Logic.Function.Basic

/-!
# JJS.Arguments.Basic

The arguments object of `ecma-arguments-object.c`, over an arbitrary type of values. The array after the header has one slot
for each actual argument and for each formal parameter. A slot holds a value, or that there is nothing any more
(`ECMA_VALUE_EMPTY`), or that the property is no longer tracked (`ECMA_VALUE_ARGUMENT_NO_TRACK`); the value of a property
that was instantiated is in the property list, and its slot is `undefined`. The lexical environment is part of the state,
since tracked properties are read from it and written to it. An operation that runs into a failed assertion gives `none`.

The index of a key has no upper bound here. From `ECMA_STRING_NOT_ARRAY_INDEX` on a name is no index for the source, but
such a name is behind all slots, where both have nothing.
-/

namespace JJS
namespace Arguments

/-- The values, and the built-ins that the operations use. -/
structure Engine (V : Type) where
  undefined : V
  sameValue : V → V → Bool
  makeUint32Value : Nat → V
  typeErrorThrower : V
  arrayPrototypeValues : V

/-- A slot of the array `argv_p`. -/
inductive Slot (V : Type) where
  | value (value : V)
  | empty
  | noTrack
deriving DecidableEq, Repr

/-- A property name: an array index, one of the names that are instantiated lazily, or any other name. -/
inductive Key (Name : Type) where
  | index (i : Nat)
  | length
  | callee
  | iterator
  | other (name : Name)
deriving DecidableEq, Repr

/-- What a property in the property list holds. -/
inductive Content (V : Type) where
  | data (value : V) (writable : Bool)
  | accessor (getter setter : Option V)
deriving DecidableEq, Repr

/-- A property of the property list, `builtIn` being `ECMA_PROPERTY_FLAG_BUILT_IN`. -/
structure Property (V : Type) where
  content : Content V
  enumerable : Bool
  configurable : Bool
  builtIn : Bool
deriving DecidableEq, Repr

/-- A property descriptor. A field that is `none` is not defined, and `shouldThrow` is `JJS_PROP_SHOULD_THROW`. -/
structure Descriptor (V : Type) where
  value : Option V
  writable : Option Bool
  get : Option (Option V)
  set : Option (Option V)
  enumerable : Option Bool
  configurable : Option Bool
  shouldThrow : Bool
  /-- A property descriptor cannot be both named data and named accessor. -/
  exclusive : value.isSome ∨ writable.isSome → get = none ∧ set = none

/-- `ECMA_OP_OBJECT_DEFINE_GENERIC`, `ECMA_OP_OBJECT_DEFINE_DATA` and `ECMA_OP_OBJECT_DEFINE_ACCESSOR`. -/
inductive DescriptorType where
  | generic
  | data
  | accessor
deriving DecidableEq, Repr

namespace Descriptor

variable {V : Type} (desc : Descriptor V)

/-- A getter or a setter is defined. -/
def isAccessor : Bool :=
  desc.get.isSome || desc.set.isSome

/-- The writable attribute is defined, and cleared. -/
def isReadOnly : Bool :=
  desc.writable == some false

/-- The type that the flags of a descriptor say. -/
def descType : DescriptorType :=
  if desc.value.isSome || desc.writable.isSome then .data
  else if desc.isAccessor then .accessor
  else .generic

end Descriptor

/-- The value an operation returns. -/
inductive Completion where
  | isTrue
  | isFalse
  | error
deriving DecidableEq, Repr

/-- An arguments object and the lexical environment of its function. -/
structure ArgumentsObject (V Name : Type) where
  mapped : Bool
  formalParameters : List (Option Name)
  argumentsNumber : Nat
  calleeValue : V
  argv : List (Slot V)
  lengthInitialized : Bool
  calleeInitialized : Bool
  iteratorInitialized : Bool
  properties : Key Name → Option (Property V)
  extensible : Bool
  lexEnv : Name → V

/-- What `ecma_op_create_arguments_object` gets: the flag `CBC_CODE_FLAGS_MAPPED_ARGUMENTS_NEEDED` and the names of the
parameters of the function, the function, the argument list and the lexical environment. -/
structure Call (V Name : Type) where
  mappedArgumentsNeeded : Bool
  formals : List Name
  function : V
  argList : List V
  lexEnv : Name → V

section Operations

variable {V Name : Type} [DecidableEq Name] (engine : Engine V)

/-- The names that the byte code of a function starts with: of a name that is repeated the last position is kept. -/
def formalParameterStart : List Name → List (Option Name)
  | [] => []
  | name :: names => (if name ∈ names then none else some name) :: formalParameterStart names

namespace ArgumentsObject

variable (object : ArgumentsObject V Name)

/-- The object with a property added, changed or removed. -/
def setProperty (key : Key Name) (property : Option (Property V)) : ArgumentsObject V Name :=
  { object with properties := Function.update object.properties key property }

/-- The object with a slot changed. -/
def setSlot (i : Nat) (slot : Slot V) : ArgumentsObject V Name :=
  { object with argv := object.argv.set i slot }

@[simp] theorem setProperty_self (key : Key Name) (property : Option (Property V)) :
    (object.setProperty key property).properties key = property :=
  Function.update_self ..

@[simp] theorem setProperty_setProperty (key : Key Name) (first second : Option (Property V)) :
    (object.setProperty key first).setProperty key second = object.setProperty key second := by
  simp only [setProperty, Function.update_idem]

/-- `ecma_op_set_mutable_binding`. -/
def setMutableBinding (name : Name) (value : V) : ArgumentsObject V Name :=
  { object with lexEnv := Function.update object.lexEnv name value }

/-- The slot of a mapped object that belongs to a formal parameter is neither empty nor no longer tracked. -/
def isTracked (i : Nat) : Bool :=
  object.mapped && i < object.formalParameters.length &&
    match object.argv[i]? with
    | some (.value _) => true
    | _ => false

/-- `ecma_op_arguments_object_get_formal_parameter`, if there is a string. -/
def getFormalParameter (i : Nat) : Option Name :=
  object.formalParameters[i]?.join

end ArgumentsObject

/-- A data property that can be changed and removed. -/
def Property.ofValue (value : V) (enumerable builtIn : Bool) : Property V where
  content := .data value true
  enumerable := enumerable
  configurable := true
  builtIn := builtIn

/-- The loop over the formal parameters in `ecma_op_create_arguments_object`. -/
def materialise (object : ArgumentsObject V Name) : List (Option Name) → Nat → ArgumentsObject V Name
  | [], _ => object
  | some _ :: names, i => materialise object names (i + 1)
  | none :: names, i =>
    match object.argv[i]? with
    | some (.value value) =>
      materialise ((object.setProperty (.index i) (some (.ofValue value true false))).setSlot i .empty) names (i + 1)
    | _ => materialise object names (i + 1)

/-- `ecma_op_create_arguments_object`. -/
def createArgumentsObject (call : Call V Name) : ArgumentsObject V Name :=
  let names := formalParameterStart call.formals
  let object : ArgumentsObject V Name :=
    { mapped := call.mappedArgumentsNeeded
      formalParameters := names
      argumentsNumber := call.argList.length
      calleeValue := call.function
      argv := call.argList.map .value ++ List.replicate (names.length - call.argList.length) (.value engine.undefined)
      lengthInitialized := false
      calleeInitialized := false
      iteratorInitialized := false
      properties := fun _ => none
      extensible := true
      lexEnv := call.lexEnv }
  if call.mappedArgumentsNeeded then materialise object names 0 else object

/-- `ecma_op_arguments_object_try_to_lazy_instantiate_property`. -/
def tryToLazyInstantiateProperty (object : ArgumentsObject V Name) (key : Key Name) :
    Option (Option (Property V) × ArgumentsObject V Name) :=
  match key with
  | .index i =>
    if i ≥ object.argumentsNumber then some (none, object)
    else
      match object.argv[i]? with
      | some .empty => some (none, object)
      | some (.value value) =>
        let property := Property.ofValue value true true
        some (some property, (object.setProperty key (some property)).setSlot i (.value engine.undefined))
      | _ => none
  | .length =>
    if object.lengthInitialized then some (none, object)
    else
      let property := Property.ofValue (engine.makeUint32Value object.argumentsNumber) false true
      some (some property, object.setProperty key (some property))
  | .callee =>
    if object.calleeInitialized then some (none, object)
    else
      let property :=
        if object.mapped then Property.ofValue object.calleeValue false true
        else
          { content := .accessor (some engine.typeErrorThrower) (some engine.typeErrorThrower)
            enumerable := false
            configurable := false
            builtIn := true }
      some (some property, object.setProperty key (some property))
  | .iterator =>
    if object.iteratorInitialized then some (none, object)
    else
      let property := Property.ofValue engine.arrayPrototypeValues false true
      some (some property, object.setProperty key (some property))
  | .other _ => some (none, object)

/-- `ecma_op_object_get_own_property` for an arguments object. The value of a tracked property is copied from the binding,
but not when the property is instantiated by this call. -/
def getOwnProperty (object : ArgumentsObject V Name) (key : Key Name) :
    Option (Option (Property V) × ArgumentsObject V Name) :=
  match object.properties key, key with
  | none, _ => tryToLazyInstantiateProperty engine object key
  | some property, .index i =>
    if object.isTracked i then do
      let name ← object.getFormalParameter i
      match property.content with
      | .data _ writable =>
        let property := { property with content := .data (object.lexEnv name) writable }
        some (some property, object.setProperty key (some property))
      | .accessor _ _ => none
    else some (some property, object)
  | some property, _ => some (some property, object)

/-- `ecma_op_object_has_own_property`. -/
def hasOwnProperty (object : ArgumentsObject V Name) (key : Key Name) : Bool :=
  match getOwnProperty engine object key with
  | some (some _, _) => true
  | _ => false

/-- `ECMA_REJECT`. -/
def reject (shouldThrow : Bool) : Completion :=
  if shouldThrow then .error else .isFalse

/-- The property that is created for a name the object does not have. -/
def newProperty (desc : Descriptor V) : Property V where
  content :=
    if desc.descType = .accessor then .accessor desc.get.join desc.set.join
    else .data (desc.value.getD engine.undefined) (desc.writable.getD false)
  enumerable := desc.enumerable.getD false
  configurable := desc.configurable.getD false
  builtIn := false

variable [DecidableEq V]

/-- A redefinition that a property which is not configurable does not allow. -/
def rejectsRedefinition (desc : Descriptor V) (property : Property V) : Bool :=
  !property.configurable &&
    (desc.configurable == some true || desc.enumerable == some (!property.enumerable) ||
      match desc.descType, property.content with
      | .generic, _ => false
      | .data, .data value writable =>
        !writable && (desc.writable == some true || desc.value.any fun new => !engine.sameValue new value)
      | .accessor, .accessor getter setter =>
        desc.get.any (fun new => new ≠ getter) || desc.set.any (fun new => new ≠ setter)
      | _, _ => true)

/-- The content after a definition that is not rejected. -/
def redefineContent (desc : Descriptor V) (content : Content V) : Content V :=
  match desc.descType, content with
  | .generic, content => content
  | .data, .data value writable => .data (desc.value.getD value) (desc.writable.getD writable)
  | .data, .accessor _ _ => .data (desc.value.getD engine.undefined) (desc.writable.getD false)
  | .accessor, .accessor getter setter => .accessor (desc.get.getD getter) (desc.set.getD setter)
  | .accessor, .data _ _ => .accessor desc.get.join desc.set.join

/-- The property after a definition that is not rejected. -/
def redefineProperty (desc : Descriptor V) (property : Property V) : Property V :=
  { property with
    content := redefineContent engine desc property.content
    enumerable := desc.enumerable.getD property.enumerable
    configurable := desc.configurable.getD property.configurable }

/-- `ecma_op_general_object_define_own_property`. -/
def generalDefineOwnProperty (object : ArgumentsObject V Name) (key : Key Name) (desc : Descriptor V) :
    Option (Completion × ArgumentsObject V Name) := do
  let (currentProp, object) ← getOwnProperty engine object key
  match currentProp with
  | none =>
    if object.extensible then some (.isTrue, object.setProperty key (some (newProperty engine desc)))
    else some (reject desc.shouldThrow, object)
  | some property =>
    if rejectsRedefinition engine desc property then some (reject desc.shouldThrow, object)
    else some (.isTrue, object.setProperty key (some (redefineProperty engine desc property)))

/-- What the definition of a tracked property does to the map. -/
def updateMap (object : ArgumentsObject V Name) (i : Nat) (desc : Descriptor V) : Option (ArgumentsObject V Name) :=
  if desc.isAccessor then some (object.setSlot i .noTrack)
  else do
    let object ←
      match desc.value with
      | none => some object
      | some value => do
        let name ← object.getFormalParameter i
        some (object.setMutableBinding name value)
    some (if desc.isReadOnly then object.setSlot i .noTrack else object)

/-- `ecma_op_arguments_object_define_own_property`. It goes on after a definition that was rejected without an error. -/
def defineOwnProperty (object : ArgumentsObject V Name) (key : Key Name) (desc : Descriptor V) :
    Option (Completion × ArgumentsObject V Name) := do
  let (retValue, object) ← generalDefineOwnProperty engine object key desc
  match key with
  | .index i =>
    if retValue = .error ∨ object.isTracked i = false then some (retValue, object)
    else do
      let object ← updateMap object i desc
      some (retValue, object)
  | _ => some (retValue, object)

/-- `ecma_op_arguments_delete_built_in_property`. -/
def deleteBuiltInProperty (object : ArgumentsObject V Name) (key : Key Name) : Option (ArgumentsObject V Name) :=
  match key with
  | .length => if object.lengthInitialized then none else some { object with lengthInitialized := true }
  | .callee =>
    if object.calleeInitialized || !object.mapped then none else some { object with calleeInitialized := true }
  | .iterator => if object.iteratorInitialized then none else some { object with iteratorInitialized := true }
  | .index i =>
    if object.argv[i]? = some (.value engine.undefined) ∨ object.argv[i]? = some .noTrack then
      some (object.setSlot i .empty)
    else none
  | .other _ => none

/-- `ecma_op_general_object_delete`. -/
def deleteProperty (object : ArgumentsObject V Name) (key : Key Name) (isThrow : Bool) :
    Option (Completion × ArgumentsObject V Name) := do
  let (property, object) ← getOwnProperty engine object key
  match property with
  | none => some (.isTrue, object)
  | some property =>
    if property.configurable = false then some (reject isThrow, object)
    else
      let object := object.setProperty key none
      if property.builtIn then do
        let object ← deleteBuiltInProperty engine object key
        some (.isTrue, object)
      else some (.isTrue, object)

/-- What can happen to the object and its environment. -/
inductive Operation (V Name : Type) where
  | define (key : Key Name) (desc : Descriptor V)
  | lookUp (key : Key Name)
  | delete (key : Key Name) (isThrow : Bool)
  | preventExtensions
  | assign (name : Name) (value : V)

/-- One operation, and what it returns. -/
def Operation.run (object : ArgumentsObject V Name) : Operation V Name → Option (Completion × ArgumentsObject V Name)
  | .define key desc => defineOwnProperty engine object key desc
  | .lookUp key => do
    let (_, object) ← getOwnProperty engine object key
    some (.isTrue, object)
  | .delete key isThrow => deleteProperty engine object key isThrow
  | .preventExtensions => some (.isTrue, { object with extensible := false })
  | .assign name value => some (.isTrue, object.setMutableBinding name value)

end Operations

end Arguments
end JJS
