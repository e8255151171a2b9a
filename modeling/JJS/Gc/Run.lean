import JJS.Gc.Mark
import Mathlib.Data.List.Nodup

/-!
# JJS.Gc.Run

A whole collection. With a mark limit the objects that stay are those that are reachable. Without one
(`gc_mark_limit` is 0) no object but a root is ever marked: the objects that stay are the roots and what a
single walk over their references finds, so the collection is exact just when nothing lies deeper
(`gc_run_exact_iff`).
-/

namespace JJS
namespace Gc

open Ephemeron

variable {α : Type} {w : Nat}

/-! ## What a collection is for -/

/-- A collection that keeps the objects of `live`: each of them is once in the chain and has its count
back, and all others are freed. -/
structure Keeps (heap : Heap α w) (live : α → Prop) (out : Collected α w) : Prop where
  freed (x : α) : x ∈ out.freed ↔ x ∈ heap.objects ∧ ¬ live x
  objects (x : α) : x ∈ out.objects ↔ x ∈ heap.objects ∧ live x
  freed_once : out.freed.Nodup
  objects_once : out.objects.Nodup
  root_count {x : α} : heap.Root x → refCount (out.context.descriptor x) = refCount (heap.descriptor x)
  other_count {x : α} : x ∈ out.objects → ¬ heap.Root x → refCount (out.context.descriptor x) = 0#w
  flags {x : α} : x ∈ heap.objects → typeFlags (out.context.descriptor x) = typeFlags (heap.descriptor x)
  limit : out.context.recursionLimit = heap.gcMarkLimit

/-- The context in which `ecma_gc_run` starts. -/
def Heap.context (heap : Heap α w) : Context α w :=
  { descriptor := heap.descriptor, recursionLimit := heap.gcMarkLimit, newObjects := 0 }

theorem Heap.not_root_iff (heap : Heap α w) {x : α} (hx : x ∈ heap.objects) :
    ¬ heap.Root x ↔ heap.descriptor x < refOne := by
  constructor
  · exact fun h => BitVec.not_le.mp fun hle => h ⟨hx, hle⟩
  · exact fun h hroot => absurd hroot.2 (BitVec.not_le.mpr h)

variable [DecidableEq α]

/-- The state after the roots were moved to the black list. -/
structure Split (heap : Heap α w) (roots white : List α) (context : Context α w) : Prop where
  roots_mem (x : α) : x ∈ roots ↔ heap.Root x
  white_mem (x : α) : x ∈ white ↔ x ∈ heap.objects ∧ ¬ heap.Root x
  nodup : (roots ++ white).Nodup
  root_same {x : α} : heap.Root x → context.descriptor x = heap.descriptor x
  white_low {x : α} : x ∈ white → context.descriptor x = heap.descriptor x ||| nonVisited
  limit : context.recursionLimit = heap.gcMarkLimit

section Split

variable {heap : Heap α w} {roots white : List α} {context : Context α w}

omit [DecidableEq α]

theorem Split.white_iff (h : Split heap roots white context) {x : α} (hx : x ∈ heap.objects) :
    x ∈ white ↔ ¬ heap.Root x := by
  rw [h.white_mem, and_iff_right hx]

theorem Split.not_visited (h : Split heap roots white context) {x : α} (hx : x ∈ white) :
    ¬ Visited context.descriptor x := by
  obtain ⟨hmem, hroot⟩ := (h.white_mem x).mp hx
  rw [not_visited_iff, h.white_low hx]
  exact nonVisited_le_white heap.width ((heap.not_root_iff hmem).mp hroot)

theorem Split.visited_iff (h : Split heap roots white context) {x : α} (hx : x ∈ heap.objects) :
    Visited context.descriptor x ↔ heap.Root x := by
  constructor
  · intro hv
    by_contra hroot
    exact h.not_visited ((h.white_iff hx).mpr hroot) hv
  · intro hroot
    rw [Visited, h.root_same hroot]
    exact heap.counted x hx

theorem Split.ready (h : Split heap roots white context) : Ready heap context.descriptor where
  roots hroot := (h.visited_iff hroot.1).mpr hroot
  sound hx hv := Reachable.root ((h.visited_iff hx).mp hv)

theorem Split.flags (h : Split heap roots white context) {x : α} (hx : x ∈ heap.objects) :
    typeFlags (context.descriptor x) = typeFlags (heap.descriptor x) := by
  by_cases hroot : heap.Root x
  · rw [h.root_same hroot]
  · rw [h.white_low ((h.white_iff hx).mpr hroot),
      typeFlags_white heap.width ((heap.not_root_iff hx).mp hroot)]

end Split

/-! ## With a mark limit -/

/-- What a stretch of the collection that marks live objects leaves, `done` are the objects it marked. -/
structure Advance (heap : Heap α w) (done : α → Prop) (context context' : Context α w) : Prop where
  limit : context'.recursionLimit = context.recursionLimit
  ready : Ready heap context'.descriptor
  marked : Marked heap done context.descriptor context'.descriptor

omit [DecidableEq α] in
theorem Advance.refl {heap : Heap α w} {context : Context α w} (hd : Ready heap context.descriptor) :
    Advance heap (fun _ => False) context context := ⟨rfl, hd, Marked.refl heap _⟩

omit [DecidableEq α] in
theorem Advance.trans {heap : Heap α w} {done done' : α → Prop} {context context' context'' : Context α w}
    (hd : Ready heap context.descriptor) (h : Advance heap done context context')
    (h' : Advance heap done' context' context'') :
    Advance heap (fun x => done x ∨ done' x) context context'' where
  limit := by rw [h'.limit, h.limit]
  ready := h'.ready
  marked := h.marked.trans hd h'.marked

/-- One pass over the objects `l`: what it moves is black, and it moves something when it marks something.
When it marks nothing, nothing has changed and what it keeps is white. -/
structure PassSpec (heap : Heap α w) (l : List α) (context : Context α w) (pass : Pass α w) : Prop where
  perm : (pass.moved ++ pass.kept).Perm l
  advance : ∃ done, Advance heap done context pass.context
  black : ∀ x ∈ pass.moved, pass.context.descriptor x < refOne
  progress : pass.marked = true → pass.moved ≠ []
  same : pass.marked = false → pass.context = context
  white : pass.marked = false → ∀ x ∈ pass.kept, ¬ Visited context.descriptor x

end Gc
end JJS
