import JJS.Lib.Ephemeron
import Mathlib.Algebra.GroupWithZero.Nat

/-!
# JJS.Gc.Basic

The mark and sweep collector (`ecma-gc.c`).

An object keeps its type, its flags and its reference count in one word. During a collection the count
also holds the colour of an object that is not a root: `NON_VISITED` for white, one for gray, zero for
black. What an object refers to is a list of references in the order in which `ecma_gc_mark` follows
them. An entry of a `WeakMap` is followed from the map when the key is visited, and from the key (its
internal `WEAK_REFS` property) when the map is.

The objects in the `gc_next_cp` chain are a list. Recursion and the passes over that list take fuel,
`none` says that it ran out.
-/

namespace JJS
namespace Gc

open Ephemeron

/-! ## The descriptor word -/

section Descriptor

variable {w : Nat}

/-- `ECMA_OBJECT_REF_SHIFT`. -/
def refShift : Nat := 5

/-- `ECMA_OBJECT_REF_ONE`. -/
def refOne : BitVec w := 1#w <<< refShift

/-- `ECMA_OBJECT_REF_MASK`. -/
def refMask : BitVec w := (~~~ 0#w) <<< refShift

/-- `ECMA_OBJECT_NON_VISITED`. -/
def nonVisited : BitVec w := refMask

/-- The reference count in a descriptor. -/
def refCount (d : BitVec w) : BitVec w := d >>> refShift

/-- The type and the flags in a descriptor. -/
def typeFlags (d : BitVec w) : BitVec w := d &&& (refOne - 1#w)

/-- The descriptor of an object that was set to black: the count is 0. -/
def black (d : BitVec w) : BitVec w := d &&& (refOne - 1#w)

/-- The descriptor of a white object that was set to gray: the count is 1. -/
def gray (d : BitVec w) : BitVec w := d &&& ((refOne <<< 1) - 1#w)

end Descriptor

/-! ## Objects -/

variable {α : Type} {w : Nat}

/-- The object has a positive reference count. -/
def IsRoot (descriptor : α → BitVec w) (x : α) : Prop := refOne ≤ descriptor x

instance (descriptor : α → BitVec w) (x : α) : Decidable (IsRoot descriptor x) :=
  inferInstanceAs (Decidable (refOne ≤ descriptor x))

/-- The state in which a collection starts: the objects of the chain with their descriptors
(`type_flags_refs`), what `ecma_gc_mark` follows from each of them, and the limits of the context. The
descriptor has 16 or 32 bits, and the count of an object never grows beyond `ECMA_OBJECT_MAX_REF`.

An entry of a `WeakMap` is seen from both of its sides. Only the key that is a template literal array
never follows it, and such an array is always a root. -/
structure Heap (α : Type) (w : Nat) where
  objects : List α
  descriptor : α → BitVec w
  refs : α → List (Ref α)
  gcMarkLimit : Nat
  width : 7 ≤ w
  nodup : objects.Nodup
  counted : ∀ x ∈ objects, descriptor x < nonVisited
  strong_mem : ∀ x ∈ objects, ∀ y, Ref.strong y ∈ refs x → y ∈ objects
  weak_mem : ∀ x ∈ objects, ∀ y v, Ref.weak y v ∈ refs x → y ∈ objects ∧ v ∈ objects
  weak_pair : ∀ x ∈ objects, ∀ y v, Ref.weak y v ∈ refs x → Ref.weak x v ∈ refs y ∨ IsRoot descriptor y

namespace Heap

/-- An object of the chain with a positive reference count. -/
def Root (heap : Heap α w) (x : α) : Prop := x ∈ heap.objects ∧ IsRoot heap.descriptor x

/-- What is reachable from the roots. -/
def Live (heap : Heap α w) (x : α) : Prop := Reachable heap.Root heap.refs x

end Heap

/-- The part of `ecma_context_t` that a collection writes. `recursionLimit` is
`ecma_gc_mark_recursion_limit`. -/
structure Context (α : Type) (w : Nat) where
  descriptor : α → BitVec w
  recursionLimit : Nat
  newObjects : Nat

/-- `ecma_gc_is_object_visited`. -/
def isObjectVisited (context : Context α w) (x : α) : Bool := context.descriptor x < nonVisited

variable [DecidableEq α]

def Context.setDescriptor (context : Context α w) (x : α) (d : BitVec w) : Context α w :=
  { context with descriptor := fun y => if y = x then d else context.descriptor y }

def Context.setLimit (context : Context α w) (limit : Nat) : Context α w :=
  { context with recursionLimit := limit }

/-- `ecma_gc_set_object_visited`, `mark` is `ecma_gc_mark`. -/
def setObjectVisited (heap : Heap α w) (mark : Context α w → α → Option (Context α w)) (context : Context α w)
    (x : α) : Option (Context α w) :=
  if nonVisited ≤ context.descriptor x then
    if heap.gcMarkLimit ≠ 0 then
      if context.recursionLimit ≠ 0 then
        let entered := (context.setLimit (context.recursionLimit - 1)).setDescriptor x (black (context.descriptor x))
        (mark entered x).map fun done => done.setLimit (done.recursionLimit + 1)
      else
        some (context.setDescriptor x (gray (context.descriptor x)))
    else
      some (context.setDescriptor x (black (context.descriptor x)))
  else
    some context

/-- One reference that `ecma_gc_mark` follows. -/
def follow (heap : Heap α w) (mark : Context α w → α → Option (Context α w)) (context : Context α w) :
    Ref α → Option (Context α w)
  | .strong y => setObjectVisited heap mark context y
  | .weak partner value =>
    if isObjectVisited context partner then setObjectVisited heap mark context value else some context

/-- `ecma_gc_mark`. -/
def mark (heap : Heap α w) : Nat → Context α w → α → Option (Context α w)
  | 0, _, _ => none
  | fuel + 1, context, x => (heap.refs x).foldlM (follow heap (mark heap fuel)) context

/-! ## The collection -/

/-- What one pass over the white and gray objects leaves: the objects that it moved to the black list, the
ones that stay, and whether it marked anything. -/
structure Pass (α : Type) (w : Nat) where
  moved : List α
  kept : List α
  marked : Bool
  context : Context α w

/-- What a collection leaves: the new chain of objects, the objects that were given to `ecma_gc_free_object`,
and the context. -/
structure Collected (α : Type) (w : Nat) where
  objects : List α
  freed : List α
  context : Context α w

end Gc
end JJS
