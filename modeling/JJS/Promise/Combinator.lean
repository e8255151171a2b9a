import JJS.Promise.Basic
import Mathlib.Algebra.GroupWithZero.Nat

/-!
# JJS.Promise.Combinator

`Promise.all`, `Promise.allSettled` and `Promise.any`: the loop over the elements (`ecma_builtin_promise_perform`) and
the functions that report for an element (`ecma_promise_all_or_all_settled_handler_cb`). The functions are handed to
`then` methods that the engine does not know, so any function that was made can be called at any time after it, as often
as one likes, also while the loop still runs; a run is any order of such acts.

An assertion that fails makes an act fail.
-/

namespace JJS
namespace Promise
namespace Combinator

/-! ## State -/

/-- `ECMA_PROMISE_ROUTINE_ALL`, `ECMA_PROMISE_ROUTINE_ALLSETTLED` and `ECMA_PROMISE_ROUTINE_ANY`. -/
inductive Routine where
  | all
  | allSettled
  | any
deriving DecidableEq

/-- The type of an element function, in its routine flags. -/
inductive PromiseType where
  | allResolve
  | allSettledResolve
  | allSettledReject
  | anyReject
deriving DecidableEq

/-- An item of the values array: an argument, or the object that `Promise.allSettled` makes of it. -/
inductive Entry where
  | plain (v : Value)
  | fulfilled (v : Value)
  | rejected (v : Value)
deriving DecidableEq

/-- `ecma_promise_all_executor_t`: the index is zero after the function was called. The other slots are the same for
all functions. -/
structure ElementFunction where
  type : PromiseType
  index : Nat
deriving DecidableEq

/-- The number in the remaining elements object. It is kept as an integer up to `ECMA_INTEGER_NUMBER_MAX`. -/
inductive NumberValue where
  | integer (n : Nat)
  | float (n : Nat)
deriving DecidableEq

/-- What is called of the capability: `resolve` with the values, `reject` with an aggregate error that has them, or
`reject` with an error that the loop ended with. -/
inductive CapabilityCall where
  | resolve (values : List Entry)
  | rejectAggregate (errors : List Entry)
  | rejectThrown
deriving DecidableEq

/-- The loop is before its next iterator step, between the definition of a value and the functions for it, or over. -/
inductive Phase where
  | iterating
  | resolving
  | finished
  | aborted
deriving DecidableEq

structure State where
  phase : Phase
  idx : Nat
  remaining : NumberValue
  values : List Entry
  functions : List ElementFunction
  calls : List CapabilityCall
deriving DecidableEq

inductive Act where
  | define
  | create
  | finish
  | abort
  | call (function : Nat) (args : List Value)
deriving DecidableEq

/-- An act cannot take place in a state, fails in an assertion, or leads to a state. -/
inductive Outcome where
  | disabled
  | failed
  | next (s : State)
deriving DecidableEq

/-! ## Acts -/

/-- `ECMA_INTEGER_NUMBER_MAX`, with and without `JJS_NUMBER_TYPE_FLOAT64`. -/
def ecmaIntegerNumberMax (float64 : Bool) : Nat := if float64 then 0x7ffffff else 0x7fffff

/-- `ecma_make_uint32_value`. -/
def ecmaMakeUint32Value (float64 : Bool) (n : Nat) : NumberValue :=
  if n ≤ ecmaIntegerNumberMax float64 then .integer n else .float n

/-- `ecma_promise_remaining_inc_or_dec`: the number object and the count. -/
def ecmaPromiseRemainingIncOrDec (float64 : Bool) (remaining : NumberValue) (isInc : Bool) : Option (NumberValue × Nat) :=
  match remaining with
  | .float _ => none
  | .integer current =>
    let current := if isInc then (current + 1) % 2 ^ 32 else (current + 2 ^ 32 - 1) % 2 ^ 32
    some (ecmaMakeUint32Value float64 current, current)

/-- The call of the capability when no element remains. -/
def settle (routine : Routine) (values : List Entry) : CapabilityCall :=
  match routine with
  | .any => .rejectAggregate values
  | .all | .allSettled => .resolve values

/-- The item that a function of the type puts into the values array. -/
def entry (type : PromiseType) (arg : Value) : Entry :=
  match type with
  | .allResolve | .anyReject => .plain arg
  | .allSettledResolve => .fulfilled arg
  | .allSettledReject => .rejected arg

/-- `args_count > 0 ? args_p[0] : ECMA_VALUE_UNDEFINED`. -/
def firstArg (args : List Value) : Value := args.head?.getD .undefined

section

variable (routine : Routine) (float64 : Bool)

/-- The types of the functions for an element, in the order in which they are made. -/
def functionTypes : List PromiseType :=
  match routine with
  | .all => [.allResolve]
  | .allSettled => [.allSettledResolve, .allSettledReject]
  | .any => [.anyReject]

/-- `ecma_promise_all_or_all_settled_handler_cb`. -/
def handler (s : State) (function : Nat) (args : List Value) : Outcome :=
  match s.functions[function]? with
  | none => .disabled
  | some executor =>
    if executor.index = 0 then .next s
    else
      let values := s.values.set (executor.index - 1) (entry executor.type (firstArg args))
      let functions := s.functions.set function { executor with index := 0 }
      match ecmaPromiseRemainingIncOrDec float64 s.remaining false with
      | none => .failed
      | some (remaining, count) =>
        let s := { s with values := values, functions := functions, remaining := remaining }
        if count = 0 then .next { s with calls := s.calls ++ [settle routine values] } else .next s

/-- The rest of a round of the loop, after the call of the resolve function of the constructor. -/
def createFunctions (s : State) : Outcome :=
  if s.idx = 0xffffffff - 1 then .next { s with phase := .aborted, calls := s.calls ++ [.rejectThrown] }
  else
    let idx := s.idx + 1
    match ecmaPromiseRemainingIncOrDec float64 s.remaining true with
    | none => .failed
    | some (remaining, _) =>
      .next { s with
        phase := .iterating
        idx := idx
        remaining := remaining
        functions := s.functions ++ (functionTypes routine).map fun type => ⟨type, idx⟩ }

/-- The end of the iteration. -/
def finishLoop (s : State) : Outcome :=
  match ecmaPromiseRemainingIncOrDec float64 s.remaining false with
  | none => .failed
  | some (remaining, count) =>
    let s := { s with phase := .finished, remaining := remaining }
    if count = 0 then .next { s with calls := s.calls ++ [settle routine s.values] } else .next s

/-- One act. The loop is in `ecma_builtin_promise_perform`; when it ends with an error, its caller rejects the
promise. -/
def step (s : State) : Act → Outcome
  | .define =>
    if s.phase = .iterating then .next { s with phase := .resolving, values := s.values ++ [.plain .undefined] }
    else .disabled
  | .create => if s.phase = .resolving then createFunctions routine float64 s else .disabled
  | .finish => if s.phase = .iterating then finishLoop routine float64 s else .disabled
  | .abort =>
    if s.phase = .iterating ∨ s.phase = .resolving then
      .next { s with phase := .aborted, calls := s.calls ++ [.rejectThrown] }
    else .disabled
  | .call function args => handler routine float64 s function args

/-- The state before the first iterator step. -/
def initial : State := ⟨.iterating, 0, .integer 1, [], [], []⟩

/-- The runs whose acts all meet a condition on the state before them. -/
inductive Run (allowed : State → Act → Prop) : List Act → State → Prop where
  | nil : Run allowed [] initial
  | act {acts : List Act} {a : Act} {s s' : State} : Run allowed acts s → allowed s a →
      step routine float64 s a = .next s' → Run allowed (acts ++ [a]) s'

end

/-! ## Reports -/

section

variable (routine : Routine)

/-- The number of functions that an element has. -/
def width : Nat := (functionTypes routine).length

/-- What a call reports: the element, and the item for it. -/
def report : Act → Option (Nat × Entry)
  | .call function args =>
    some (function / width routine,
      entry ((functionTypes routine).getD (function % width routine) .allResolve) (firstArg args))
  | _ => none

/-- The first report for an element in a run. -/
def firstReport (acts : List Act) (i : Nat) : Option Entry :=
  ((acts.filterMap (report routine)).find? fun r => r.1 = i).map Prod.snd

/-- The elements that have not reported. -/
def unreported (acts : List Act) (n : Nat) : List Nat :=
  (List.range n).filter fun i => (firstReport routine acts i).isNone

/-- The item that belongs to an element: its first report. -/
def item (acts : List Act) (i : Nat) : Entry := (firstReport routine acts i).getD (.plain .undefined)

/-- Every element counts once. The remaining count is one, while the loop runs, and the number of elements that have not
reported; the values are the first reports; and the capability is called when the loop is over and the last element has
reported, or when the loop ends with an error. -/
structure CountsOnce (acts : List Act) (s : State) : Prop where
  remaining : s.remaining = .integer ((if s.phase = .finished then 0 else 1) + (unreported routine acts s.idx).length)
  values : ∀ i, i < s.idx → s.values[i]? = some (item routine acts i)
  calls : s.calls =
    match s.phase with
    | .iterating | .resolving => []
    | .aborted => [.rejectThrown]
    | .finished =>
      if unreported routine acts s.idx = [] then [settle routine ((List.range s.idx).map (item routine acts))] else []

end

end Combinator
end Promise
end JJS
