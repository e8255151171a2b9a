import Mathlib.Data.List.Basic
import Mathlib.Algebra.GroupWithZero.Nat

/-!
# JJS.VmStack.Basic

The contexts on the stack of an executable object, and what goes through them: `vm_ref_lex_env_chain` and
`vm_stack_context_abort` (`vm-stack.c`), and `ecma_gc_mark_executable_object` (`ecma-gc.c`).

The part of the stack that the contexts take up is the list of its words from `context_top_p` down to `context_end_p`:
`context_top_p[-1]` is the head, and the position of a word is the number of words below it. What is done at a place is a
parameter, `visit`; `vm_ref_lex_env_chain` and the others are the walks with their own. A lexical environment and those
around it are a list from the inside out, and the function `collections` holds the collections of the for-in contexts.

A failed assertion, a fatal error, and a read below `context_end_p` are `none`.
-/

namespace JJS
namespace VmStack

/-! ## Values -/

/-- `ecma_is_value_object`. -/
def ecmaIsValueObject (value : Nat) : Bool := value &&& 7 = 3

/-- `ecma_get_object_from_value`. -/
def ecmaGetObjectFromValue (value : Nat) : Option Nat :=
  if ecmaIsValueObject value then some (value >>> 3) else none

/-- The value of an object, as `ecma_make_object_value` makes it. -/
def ecmaMakeObjectValue (object : Nat) : Nat := object <<< 3 ||| 3

/-! ## Contexts -/

/-- `vm_stack_context_type_t`. -/
inductive ContextType where
  | finallyJump
  | finallyThrow
  | finallyReturn
  | tryContext
  | catchContext
  | block
  | withContext
  | forIn
  | forOf
  | forAwaitOf
  | iterator
  | objInit
  | objInitRest
deriving DecidableEq

namespace ContextType

/-- The number of a type. -/
def code : ContextType → Nat
  | .finallyJump => 0
  | .finallyThrow => 1
  | .finallyReturn => 2
  | .tryContext => 3
  | .catchContext => 4
  | .block => 5
  | .withContext => 6
  | .forIn => 7
  | .forOf => 8
  | .forAwaitOf => 9
  | .iterator => 10
  | .objInit => 11
  | .objInitRest => 12

def ofCode : Nat → Option ContextType
  | 0 => some .finallyJump
  | 1 => some .finallyThrow
  | 2 => some .finallyReturn
  | 3 => some .tryContext
  | 4 => some .catchContext
  | 5 => some .block
  | 6 => some .withContext
  | 7 => some .forIn
  | 8 => some .forOf
  | 9 => some .forAwaitOf
  | 10 => some .iterator
  | 11 => some .objInit
  | 12 => some .objInitRest
  | _ => none

@[simp] theorem ofCode_code (type : ContextType) : ofCode type.code = some type := by cases type <;> rfl

theorem code_lt (type : ContextType) : type.code < 32 := by cases type <;> decide

/-- `VM_CONTEXT_IS_VARIABLE_LENGTH`. -/
def isVariableLength (type : ContextType) : Bool := 10 ≤ type.code

end ContextType

/-- `PARSER_FINALLY_CONTEXT_STACK_ALLOCATION`. -/
def parserFinallyContextStackAllocation : Nat := 2

/-- `PARSER_WITH_CONTEXT_STACK_ALLOCATION`; that of a try or a block context is the same. -/
def parserWithContextStackAllocation : Nat := 1

/-- `PARSER_FOR_IN_CONTEXT_STACK_ALLOCATION`. -/
def parserForInContextStackAllocation : Nat := 4

/-- `PARSER_FOR_OF_CONTEXT_STACK_ALLOCATION`; that of a for-await-of context is the same. -/
def parserForOfContextStackAllocation : Nat := 4

/-- `VM_CONTEXT_HAS_LEX_ENV`. -/
def vmContextHasLexEnv : Nat := 0x20

/-- `VM_CONTEXT_CLOSE_ITERATOR`. -/
def vmContextCloseIterator : Nat := 0x40

/-- `VM_CREATE_CONTEXT`. -/
def vmCreateContext (type : ContextType) (endOffset : Nat) : Nat := (type.code ||| endOffset <<< 7) % 2 ^ 32

/-- `VM_GET_CONTEXT_TYPE`. -/
def vmGetContextType (value : Nat) : Option ContextType := ContextType.ofCode (value &&& 0x1f)

/-- `VM_GET_CONTEXT_END`. -/
def vmGetContextEnd (value : Nat) : Nat := value >>> 7

/-! ## Places -/

/-- Where a walk through the contexts comes by. -/
inductive Place where
  /-- The lexical environment of a context. -/
  | lexEnv (object : Nat)
  /-- A value in a context of variable length. -/
  | item (position value : Nat)
  /-- A value in another context. -/
  | value (position value : Nat)
  /-- A name that a for-in context has yet to give. -/
  | name (collection index value : Nat)
  /-- The collection of a for-in context. -/
  | collection (collection : Nat)
deriving DecidableEq

namespace Place

/-- The object at a place, if there is one. -/
def object : Place → Option Nat
  | .lexEnv object => some object
  | .item _ held | .value _ held | .name _ _ held => ecmaGetObjectFromValue held
  | .collection _ => none

end Place

variable {σ : Type}

/-- The lexical environment of a context, if it has one. There is another one around it. -/
def visitLexEnv (visit : σ → Place → Option σ) (contextInfo : Nat) (lexEnvs : List Nat) (s : σ) :
    Option (List Nat × σ) :=
  if contextInfo &&& vmContextHasLexEnv ≠ 0 then
    match lexEnvs with
    | lexEnv :: next :: outer => (visit s (.lexEnv lexEnv)).map fun s => (next :: outer, s)
    | _ => none
  else some (lexEnvs, s)

/-! ## Walking through a context -/

/-- `VM_CONTEXT_OFFSET_SHIFT`. -/
def vmContextOffsetShift : Nat := 4

/-- `vm_get_context_value_offsets`. -/
def vmGetContextValueOffsets : ContextType → Option Nat
  | .finallyThrow | .finallyReturn => some (parserFinallyContextStackAllocation <<< vmContextOffsetShift ||| 2)
  | .finallyJump => some parserFinallyContextStackAllocation
  | .tryContext | .catchContext | .block | .withContext => some parserWithContextStackAllocation
  | .forIn => some (parserForInContextStackAllocation <<< vmContextOffsetShift ||| 4)
  | .forOf | .forAwaitOf =>
    some (parserForOfContextStackAllocation <<< (vmContextOffsetShift * 3) ||| 4 <<< (vmContextOffsetShift * 2) |||
      3 <<< vmContextOffsetShift ||| 2)
  | .iterator | .objInit | .objInitRest => none

/-- `VM_CONTEXT_HAS_NEXT_OFFSET`. -/
def vmContextHasNextOffset (offsets : Nat) : Bool := 1 <<< vmContextOffsetShift ≤ offsets

/-- `VM_CONTEXT_GET_NEXT_OFFSET`, without the sign. -/
def vmContextGetNextOffset (offsets : Nat) : Nat := offsets &&& (1 <<< vmContextOffsetShift - 1)

/-- The value at an offset from the top. -/
def visitValue (visit : σ → Place → Option σ) (stack : List Nat) (offset : Nat) (s : σ) : Option σ :=
  if offset = 0 then none
  else stack[offset - 1]?.bind fun value => visit s (.value (stack.length - offset) value)

/-- The loop over the offsets, and what is left of them. There are at most eight in a word. -/
def visitOffsets (visit : σ → Place → Option σ) (stack : List Nat) : Nat → Nat → σ → Option (Nat × σ)
  | 0, _, _ => none
  | rounds + 1, offsets, s =>
    if vmContextHasNextOffset offsets then
      (visitValue visit stack (vmContextGetNextOffset offsets) s).bind
        (visitOffsets visit stack rounds (offsets >>> vmContextOffsetShift))
    else some (offsets, s)

/-- The loop over the values of a context of variable length. The condition is at its end. -/
def visitItems (visit : σ → Place → Option σ) (lastItem : Nat) : List Nat → σ → Option (List Nat × σ)
  | [], _ => none
  | value :: rest, s =>
    (visit s (.item rest.length value)).bind fun s =>
      if lastItem < rest.length then visitItems visit lastItem rest s else some (rest, s)

/-- The values of the context on top, which is left behind. -/
def visitContext (visit : σ → Place → Option σ) (stack : List Nat) (s : σ) : Option (List Nat × σ) := do
  let contextInfo ← stack.head?
  let type ← vmGetContextType contextInfo
  if type.isVariableLength then
    if stack.length < vmGetContextEnd contextInfo then none
    else visitItems visit (stack.length - vmGetContextEnd contextInfo) stack.tail s
  else
    let offsets ← vmGetContextValueOffsets type
    let (offsets, s) ← visitOffsets visit stack 8 offsets s
    if stack.length < offsets then none else some (stack.drop offsets, s)

/-! ## References -/

/-- The loop of `vm_ref_lex_env_chain`, and the words it leaves. -/
def visitLexEnvChain (visit : σ → Place → Option σ) : Nat → List Nat → List Nat → σ → Option (List Nat × σ)
  | 0, _, _, _ => none
  | rounds + 1, lexEnvs, stack, s => do
    let contextInfo ← stack.head?
    let (lexEnvs, s) ← visitLexEnv visit contextInfo lexEnvs s
    let (stack, s) ← visitContext visit stack s
    if 0 < stack.length then visitLexEnvChain visit rounds lexEnvs stack s else some (stack, s)

/-- `ecma_ref_object`, on the reference counts of all objects. -/
def ecmaRefObject (maxRef : Nat) (refs : Nat → Nat) (object : Nat) : Option (Nat → Nat) :=
  if refs object < maxRef then some (Function.update refs object (refs object + 1)) else none

/-- `ecma_deref_object`. -/
def ecmaDerefObject (refs : Nat → Nat) (object : Nat) : Option (Nat → Nat) :=
  if 1 ≤ refs object then some (Function.update refs object (refs object - 1)) else none

/-- What is done with an object at a place. -/
def atObject (act : σ → Nat → Option σ) (s : σ) (place : Place) : Option σ :=
  match place.object with
  | some object => act s object
  | none => some s

/-- `vm_ref_lex_env_chain`. -/
def vmRefLexEnvChain (maxRef : Nat) (lexEnvs contexts : List Nat) (doRef : Bool) (refs : Nat → Nat) :
    Option (List Nat × (Nat → Nat)) :=
  visitLexEnvChain (atObject (if doRef then ecmaRefObject maxRef else ecmaDerefObject)) contexts.length lexEnvs contexts
    refs

/-! ## Marking -/

/-- At a value of a context of variable length `ecma_gc_mark_executable_object` does not ask whether it is an object. -/
def markPlace (visit : σ → Place → Option σ) (s : σ) : Place → Option σ
  | .item position value => if ecmaIsValueObject value then visit s (.item position value) else none
  | .value position value => if ecmaIsValueObject value then visit s (.value position value) else some s
  | place => visit s place

/-- The loop of `ecma_gc_mark_executable_object` through the contexts, and the words it leaves. -/
def markContexts (visit : σ → Place → Option σ) : Nat → List Nat → σ → Option (List Nat × σ)
  | 0, _, _ => none
  | rounds + 1, stack, s => do
    let (stack, s) ← visitContext (markPlace visit) stack s
    if 0 < stack.length then markContexts visit rounds stack s else some (stack, s)

/-- A member of the queue of an async generator: `ecma_async_generator_task_t`. -/
structure AsyncGeneratorTask where
  promise : Nat
  operationValue : Nat

/-- What is used of `vm_executable_object_t`. The registers and the values above the contexts are listed upwards. -/
structure ExecutableObject where
  asyncGeneratorCalled : Bool
  tasks : List AsyncGeneratorTask
  lexEnv : Nat
  functionObject : Nat
  suspended : Bool
  doAwaitOrYield : Bool
  thisBinding : Nat
  registers : List Nat
  contexts : List Nat
  operands : List Nat
  iterator : Nat

/-- A value that is an object is set visited. -/
def visitIfObject (visited : σ → Nat → σ) (s : σ) (value : Nat) : σ :=
  match ecmaGetObjectFromValue value with
  | some object => visited s object
  | none => s

def markTask (visited : σ → Nat → σ) (s : σ) (task : AsyncGeneratorTask) : Option σ :=
  (ecmaGetObjectFromValue task.promise).map fun promise => visitIfObject visited (visited s promise) task.operationValue

/-- The queue of an async generator. -/
def markTasks (visited : σ → Nat → σ) (object : ExecutableObject) (s : σ) : Option σ :=
  if object.asyncGeneratorCalled then object.tasks.foldlM (markTask visited) s else some s

/-- The contexts, when there are some. -/
def markContextDepth (visited : σ → Nat → σ) (contexts : List Nat) (s : σ) : Option σ :=
  if 0 < contexts.length then
    (markContexts (atObject fun s object => some (visited s object)) contexts.length contexts s).map Prod.snd
  else some s

/-- `ecma_gc_mark_executable_object`. `visited` is `ecma_gc_set_object_visited`. -/
def ecmaGcMarkExecutableObject (visited : σ → Nat → σ) (object : ExecutableObject) (s : σ) : Option σ := do
  let s ← markTasks visited object s
  let s := visited (visited s object.lexEnv) object.functionObject
  if !object.suspended && !object.doAwaitOrYield then some s
  else
    let s := visitIfObject visited s object.thisBinding
    let s ← markContextDepth visited object.contexts (object.registers.foldl (visitIfObject visited) s)
    some (visitIfObject visited (object.operands.foldl (visitIfObject visited) s) object.iterator)

/-! ## Leaving contexts -/

/-- What is used of `vm_frame_ctx_t`. -/
structure Frame where
  lexEnvs : List Nat
  contextDepth : Nat
  stack : List Nat
deriving DecidableEq

/-- `VM_MINUS_EQUAL_U16`. -/
def vmMinusEqualU16 (base value : Nat) : Nat := (base + 2 ^ 16 - value % 2 ^ 16) % 2 ^ 16

/-- The loop of `vm_stack_context_abort_variable_length`. -/
def freeItems (visit : σ → Place → Option σ) : Nat → List Nat → σ → Option (List Nat × σ)
  | 0, stack, s => some (stack, s)
  | _ + 1, [], _ => none
  | count + 1, value :: rest, s => (visit s (.item rest.length value)).bind (freeItems visit count rest)

/-- `vm_stack_context_abort_variable_length`. -/
def vmStackContextAbortVariableLength (visit : σ → Place → Option σ) (frame : Frame) (contextStackAllocation : Nat)
    (s : σ) : Option (Frame × σ) := do
  let contextInfo ← frame.stack.head?
  let contextSize := vmGetContextEnd contextInfo
  if contextSize = 0 then none
  else
    let contextStackAllocation := if contextStackAllocation = 0 then contextSize else contextStackAllocation
    let (stack, s) ← freeItems visit (contextStackAllocation - 1) frame.stack.tail s
    some ({ frame with contextDepth := vmMinusEqualU16 frame.contextDepth contextSize, stack := stack }, s)

/-- A context of a fixed length is taken from the stack. -/
def Frame.pop (frame : Frame) (allocation : Nat) : Frame :=
  { frame with
    contextDepth := vmMinusEqualU16 frame.contextDepth allocation
    stack := frame.stack.drop allocation }

/-- The names of a for-in context from the current index on, and the collection. -/
def freeNames (collections : Nat → List Nat) (visit : σ → Place → Option σ) (stack : List Nat) (s : σ) : Option σ := do
  let collection ← stack[1]?
  let index ← stack[2]?
  let s ← ((collections collection).zipIdx.drop index).foldlM (fun s entry => visit s (.name collection entry.2 entry.1)) s
  visit s (.collection collection)

/-- `vm_stack_context_abort`. -/
def vmStackContextAbort (collections : Nat → List Nat) (visit : σ → Place → Option σ) (frame : Frame) (s : σ) :
    Option (Frame × σ) := do
  let contextInfo ← frame.stack.head?
  let (lexEnvs, s) ← visitLexEnv visit contextInfo frame.lexEnvs s
  let frame := { frame with lexEnvs := lexEnvs }
  match ← vmGetContextType contextInfo with
  | .finallyThrow | .finallyReturn =>
    let s ← visitValue visit frame.stack 2 s
    some (frame.pop parserFinallyContextStackAllocation, s)
  | .finallyJump => some (frame.pop parserFinallyContextStackAllocation, s)
  | .tryContext | .catchContext | .block | .withContext => some (frame.pop parserWithContextStackAllocation, s)
  | .iterator | .objInit | .objInitRest => vmStackContextAbortVariableLength visit frame 0 s
  | .forOf | .forAwaitOf =>
    let s ← visitValue visit frame.stack 2 s
    let s ← visitValue visit frame.stack 3 s
    let s ← visitValue visit frame.stack 4 s
    some (frame.pop parserForOfContextStackAllocation, s)
  | .forIn =>
    let s ← freeNames collections visit frame.stack s
    let s ← visitValue visit frame.stack 4 s
    some (frame.pop parserForInContextStackAllocation, s)

/-- `vm_stack_context_abort` until there is no context left. -/
def abortContexts (collections : Nat → List Nat) (visit : σ → Place → Option σ) : Nat → Frame → σ → Option (Frame × σ)
  | 0, frame, s => if frame.contextDepth = 0 then some (frame, s) else none
  | rounds + 1, frame, s =>
    if frame.contextDepth = 0 then some (frame, s)
    else do
      let (frame, s) ← vmStackContextAbort collections visit frame s
      abortContexts collections visit rounds frame s

/-- `ecma_free_value`, as far as objects are concerned, and `ecma_deref_object`. -/
def releasePlace : (Nat → Nat) → Place → Option (Nat → Nat) := atObject ecmaDerefObject

end VmStack
end JJS
