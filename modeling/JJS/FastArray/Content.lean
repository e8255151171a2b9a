import JJS.FastArray.Basic

/-!
# JJS.FastArray.Content

What an array is to a program: its length, whether `length` can be changed, and its properties. The operations on
it are those of ECMAScript arrays, with no mode and no buffer.
-/

namespace JJS
namespace FastArray

open Strings (uint32Max)

variable {κ α : Type}

/-- The content of an array; a property has a value and is configurable or not. -/
@[ext]
structure Content (κ α : Type) where
  length : Nat
  writable : Bool
  get : Key κ → Option (α × Bool)

/-- The key is an array index. -/
def Key.IsIndex (key : Key κ) : Prop := ecmaStringGetArrayIndex key ≠ uint32Max

instance (key : Key κ) : Decidable key.IsIndex := inferInstanceAs (Decidable (_ ≠ _))

/-- The length that a deletion from the end down to `newLength` stops at: above the last property that is not
configurable. -/
def stopLength (fixed : Nat → Bool) (newLength : Nat) : Nat → Nat
  | 0 => newLength
  | length + 1 =>
    if length < newLength then newLength
    else if fixed length then length + 1
    else stopLength fixed newLength length

namespace Content

/-- The element at the index is not configurable. -/
def fixed (content : Content κ α) (index : Nat) : Bool :=
  (content.get (.number (BitVec.ofNat 32 index))).any fun property => !property.2

section Operations

variable [DecidableEq κ]

/-- The content with a property, and a length that covers it. -/
def update (content : Content κ α) (key : Key κ) (property : α × Bool) : Content κ α where
  length :=
    if key.IsIndex ∧ content.length ≤ ecmaStringGetArrayIndex key then ecmaStringGetArrayIndex key + 1 else content.length
  writable := content.writable
  get := fun other => if other = key then some property else content.get other

/-- A new element behind the end takes a change of the length. -/
def Refuses (content : Content κ α) (key : Key κ) : Prop :=
  key.IsIndex ∧ content.length ≤ ecmaStringGetArrayIndex key ∧ content.writable = false

instance (content : Content κ α) (key : Key κ) : Decidable (content.Refuses key) :=
  inferInstanceAs (Decidable (_ ∧ _ ∧ _))

def put (content : Content κ α) (key : Key κ) (value : α) : Content κ α × Completion :=
  match content.get key with
  | some (_, configurable) => (content.update key (value, configurable), .true)
  | none =>
    if content.Refuses key then (content, .readonlyAssignment) else (content.update key (value, true), .true)

def define (content : Content κ α) (key : Key κ) (value : α) (configurable : Bool) : Content κ α × Completion :=
  if content.Refuses key then (content, .redefinition)
  else if configurable ∧ (content.get key).any (fun property => !property.2) then (content, .redefinition)
  else (content.update key (value, configurable), .true)

def delete (content : Content κ α) (key : Key κ) : Content κ α × Completion :=
  match content.get key with
  | none => (content, .true)
  | some (_, configurable) =>
    if configurable then ({ content with get := fun other => if other = key then none else content.get other }, .true)
    else (content, .notConfigurable)

/-- The elements from the new length on are deleted. -/
def truncate (content : Content κ α) (length : Nat) : Content κ α where
  length := length
  writable := content.writable
  get := fun key => if key.IsIndex ∧ length ≤ ecmaStringGetArrayIndex key then none else content.get key

/-- `length` is made read-only when the descriptor says so. -/
def restrict (content : Content κ α) (flags : LengthFlags) : Content κ α :=
  if flags.writable = some false then { content with writable := false } else content

def setLength (content : Content κ α) (newLen : Option (BitVec 32)) (flags : LengthFlags) : Content κ α × Completion :=
  match newLen with
  | none => (content, .rangeError)
  | some newLen =>
    if flags.refused then (content, .redefinition)
    else if newLen.toNat = content.length then
      if flags.writable = some true ∧ content.writable = false then (content, .redefinition)
      else (content.restrict flags, .true)
    else if content.writable = false then (content, .redefinition)
    else
      let length := stopLength content.fixed newLen.toNat content.length
      ((content.truncate length).restrict flags, if length = newLen.toNat then .true else .redefinition)

def putLength (content : Content κ α) (newLen : Option (BitVec 32)) : Content κ α × Completion :=
  if content.writable then content.setLength newLen { refused := false, writable := none }
  else (content, .readonlyAssignment)

/-- An operation on an array. A conversion is nothing to the program. -/
def step (content : Content κ α) : Op κ α → Content κ α × Completion
  | .put key value => content.put key value
  | .define key value configurable => content.define key value configurable
  | .delete key => content.delete key
  | .putLength newLen => content.putLength newLen
  | .setLength newLen flags => content.setLength newLen flags
  | .convert => (content, .true)

end Operations

/-- The content of a new array. -/
def ofSource : Source α → Content κ α
  | .length length => ⟨length.toNat, true, fun _ => none⟩
  | .buffer args _ => ⟨args.length, true, ofList args⟩
  | .collection collection _ => ⟨collection.length, true, ofList collection⟩
where
  ofList (values : List α) : Key κ → Option (α × Bool)
    | .number n => values[n.toNat]?.map fun value => (value, true)
    | .other _ => none

end Content

/-- A deletion stops above the last element that is not configurable, or at the new length. -/
theorem stopLength_eq {fixed : Nat → Bool} {newLength length stop : Nat}
    (hstop : stop = newLength ∨ newLength < stop ∧ stop ≤ length ∧ fixed (stop - 1) = true)
    (habove : ∀ i < length, stop ≤ i → fixed i = false) : stopLength fixed newLength length = stop := by
  induction length with
  | zero =>
    rw [stopLength]
    omega
  | succ length ih =>
    rw [stopLength]
    split
    · rename_i hlt
      cases hstop with
      | inl heq => exact heq.symm
      | inr hfixed => omega
    · rename_i hge
      split
      · rename_i hfixed
        have hgt : length < stop := by
          by_contra hle
          rw [habove length (Nat.lt_succ_self length) (by omega)] at hfixed
          cases hfixed
        omega
      · rename_i hfree
        refine ih ?_ (fun i hi => habove i (by omega))
        cases hstop with
        | inl heq => exact Or.inl heq
        | inr hfixed =>
          refine Or.inr ⟨hfixed.1, ?_, hfixed.2.2⟩
          by_contra hlt
          have heq : stop - 1 = length := by omega
          rw [heq] at hfixed
          exact hfree hfixed.2.2

end FastArray
end JJS
