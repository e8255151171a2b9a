import JJS.Gc.Basic

/-!
# JJS.Gc.Mark

What marking does, for a mark limit other than 0. `Marked` relates the descriptors before and after some
marking, together with the objects on which `ecma_gc_mark` was called and returned: everything that they
refer to is visited, an entry of a weak map as soon as both of its sides were marked, whichever came first.
It composes (`Marked.trans`), and a call of `ecma_gc_mark` adds its object to the marking of its references
(`Marked.enter`).
-/

namespace JJS
namespace Gc

open Ephemeron

/-! ## The descriptor word -/

section Descriptor

variable {w : Nat}

theorem two_pow_width (hw : 7 ≤ w) : ∃ k, 2 ^ w = 128 * (k + 1) := by
  refine ⟨2 ^ (w - 7) - 1, ?_⟩
  have hone : 1 ≤ 2 ^ (w - 7) := Nat.one_le_two_pow
  rw [Nat.sub_add_cancel hone]
  calc 2 ^ w = 2 ^ (7 + (w - 7)) := by rw [Nat.add_sub_cancel' hw]
    _ = 128 * 2 ^ (w - 7) := by rw [Nat.pow_add]

theorem toNat_refOne (hw : 7 ≤ w) : (refOne : BitVec w).toNat = 32 := by
  obtain ⟨k, hk⟩ := two_pow_width hw
  rw [refOne, BitVec.toNat_shiftLeft, BitVec.toNat_ofNat, refShift, hk, Nat.mod_eq_of_lt (by omega : 1 < 128 * (k + 1))]
  exact Nat.mod_eq_of_lt (by omega)

theorem toNat_nonVisited (hw : 7 ≤ w) : (nonVisited : BitVec w).toNat = 2 ^ w - 32 := by
  obtain ⟨k, hk⟩ := two_pow_width hw
  have hmask : (128 * (k + 1) - 1) * 2 ^ 5 = 128 * k + 96 + 31 * (128 * (k + 1)) := by omega
  rw [nonVisited, refMask, BitVec.toNat_shiftLeft, BitVec.toNat_not, refShift, BitVec.toNat_ofNat, Nat.zero_mod,
    Nat.sub_zero, Nat.shiftLeft_eq, hk, hmask, Nat.add_mul_mod_self_right, Nat.mod_eq_of_lt (by omega)]
  omega

theorem toNat_black (hw : 7 ≤ w) (d : BitVec w) : (black d).toNat = d.toNat % 32 := by
  have hone := toNat_refOne hw
  have hmask : (refOne - 1#w).toNat = 31 := by
    rw [BitVec.toNat_sub, hone, BitVec.toNat_ofNat]
    obtain ⟨k, hk⟩ := two_pow_width hw
    have hsum : 128 * (k + 1) - 1 + 32 = 31 + 128 * (k + 1) := by omega
    rw [hk, Nat.mod_eq_of_lt (by omega : 1 < 128 * (k + 1)), hsum, Nat.add_mod_right, Nat.mod_eq_of_lt (by omega)]
  rw [black, BitVec.toNat_and, hmask]
  exact Nat.and_two_pow_sub_one_eq_mod d.toNat 5

theorem typeFlags_eq_black (d : BitVec w) : typeFlags d = black d := rfl

theorem toNat_white (hw : 7 ≤ w) {d : BitVec w} (hd : d < refOne) : (d ||| nonVisited).toNat = d.toNat + (2 ^ w - 32) := by
  have hone := toNat_refOne hw
  have hmask := toNat_nonVisited hw
  obtain ⟨k, hk⟩ := two_pow_width hw
  have hlt : d.toNat < 2 ^ 5 := by
    have := BitVec.lt_def.mp hd
    omega
  have hhigh : 2 ^ w - 32 = 2 ^ 5 * (4 * k + 3) := by omega
  rw [BitVec.toNat_or, hmask, hhigh, Nat.or_comm, ← Nat.two_pow_add_eq_or_of_lt hlt, Nat.add_comm]

theorem nonVisited_le_white (hw : 7 ≤ w) {d : BitVec w} (hd : d < refOne) : nonVisited ≤ d ||| nonVisited := by
  rw [BitVec.le_def, toNat_white hw hd, toNat_nonVisited hw]
  omega

theorem typeFlags_white (hw : 7 ≤ w) {d : BitVec w} (hd : d < refOne) : typeFlags (d ||| nonVisited) = typeFlags d := by
  obtain ⟨k, hk⟩ := two_pow_width hw
  apply BitVec.eq_of_toNat_eq
  rw [typeFlags_eq_black, typeFlags_eq_black, toNat_black hw, toNat_black hw, toNat_white hw hd]
  omega

theorem refCount_eq_zero (hw : 7 ≤ w) {d : BitVec w} (hd : d < refOne) : refCount d = 0#w := by
  have hlt := BitVec.lt_def.mp hd
  rw [toNat_refOne hw] at hlt
  apply BitVec.eq_of_toNat_eq
  rw [refCount, BitVec.toNat_ushiftRight, refShift, BitVec.toNat_ofNat, Nat.zero_mod, Nat.shiftRight_eq_div_pow]
  omega

end Descriptor

/-! ## Visited objects -/

variable {α : Type} {w : Nat}

/-- The object is not white. -/
def Visited (d : α → BitVec w) (x : α) : Prop := d x < nonVisited

theorem not_visited_iff {d : α → BitVec w} {x : α} : ¬ Visited d x ↔ nonVisited ≤ d x := BitVec.not_lt

/-- The roots are visited, and only live objects are. -/
structure Ready (heap : Heap α w) (d : α → BitVec w) : Prop where
  roots {x : α} : heap.Root x → Visited d x
  sound {x : α} : x ∈ heap.objects → Visited d x → heap.Live x

/-- Some marking led from the descriptors `d` to `d'`; `done` are the objects that `ecma_gc_mark` marked. -/
structure Marked (heap : Heap α w) (done : α → Prop) (d d' : α → BitVec w) : Prop where
  mem {x : α} : done x → x ∈ heap.objects
  mono {x : α} : Visited d x → Visited d' x
  kept {x : α} : heap.Root x ∨ d x < refOne → d' x = d x
  flags (x : α) : typeFlags (d' x) = typeFlags (d x)
  turned {x : α} : ¬ heap.Root x → d' x < refOne → d x < refOne ∨ done x
  visited {x : α} : done x → Visited d' x
  strong {x y : α} : done x → Ref.strong y ∈ heap.refs x → Visited d' y
  weak {x y v : α} : done x → Ref.weak y v ∈ heap.refs x → Visited d y ∨ done y → Visited d' v

/-- The references `l` were followed between `d` and `d'`. -/
structure Followed (l : List (Ref α)) (d d' : α → BitVec w) : Prop where
  strong {y : α} : Ref.strong y ∈ l → Visited d' y
  weak {y v : α} : Ref.weak y v ∈ l → Visited d y → Visited d' v

theorem Marked.refl (heap : Heap α w) (d : α → BitVec w) : Marked heap (fun _ => False) d d where
  mem h := h.elim
  mono h := h
  kept _ := rfl
  flags _ := rfl
  turned _ h := Or.inl h
  visited h := h.elim
  strong h := h.elim
  weak h := h.elim

/-- The partner of an entry whose other side is `x` is a root, or sees the entry as well. -/
theorem Heap.weak_cases (heap : Heap α w) {x y v : α} (hx : x ∈ heap.objects) (h : Ref.weak y v ∈ heap.refs x) :
    Ref.weak x v ∈ heap.refs y ∨ heap.Root y := by
  cases heap.weak_pair x hx y v h with
  | inl hpair => exact Or.inl hpair
  | inr hroot => exact Or.inr ⟨(heap.weak_mem x hx y v h).1, hroot⟩

theorem Marked.trans {heap : Heap α w} {done done' : α → Prop} {d d' d'' : α → BitVec w} (hd : Ready heap d)
    (h : Marked heap done d d') (h' : Marked heap done' d' d'') :
    Marked heap (fun x => done x ∨ done' x) d d'' where
  mem hx := hx.elim h.mem h'.mem
  mono hx := h'.mono (h.mono hx)
  kept := by
    intro x hx
    have hfirst := h.kept hx
    have hsecond := h'.kept (x := x) (by rw [hfirst]; exact hx)
    rw [hsecond, hfirst]
  flags x := by rw [h'.flags, h.flags]
  turned := by
    intro x hroot hx
    cases h'.turned hroot hx with
    | inl hx => exact (h.turned hroot hx).imp_right Or.inl
    | inr hx => exact Or.inr (Or.inr hx)
  visited := by
    intro x hx
    cases hx with
    | inl hx => exact h'.mono (h.visited hx)
    | inr hx => exact h'.visited hx
  strong := by
    intro x y hx hr
    cases hx with
    | inl hx => exact h'.mono (h.strong hx hr)
    | inr hx => exact h'.strong hx hr
  weak := by
    intro x y v hx hr hy
    cases hx with
    | inl hx =>
      cases hy with
      | inl hy => exact h'.mono (h.weak hx hr (Or.inl hy))
      | inr hy =>
        cases hy with
        | inl hy => exact h'.mono (h.weak hx hr (Or.inr hy))
        | inr hy =>
          -- the partner was marked later, when this side was visited already
          cases heap.weak_cases (h.mem hx) hr with
          | inl hpair => exact h'.weak hy hpair (Or.inl (h.visited hx))
          | inr hroot => exact h'.mono (h.weak hx hr (Or.inl (hd.roots hroot)))
    | inr hx =>
      cases hy with
      | inl hy => exact h'.weak hx hr (Or.inl (h.mono hy))
      | inr hy =>
        cases hy with
        | inl hy => exact h'.weak hx hr (Or.inl (h.visited hy))
        | inr hy => exact h'.weak hx hr (Or.inr hy)

/-- What a call that follows the references `l` leaves. -/
structure Marks (heap : Heap α w) (l : List (Ref α)) (context context' : Context α w) : Prop where
  limit : context'.recursionLimit = context.recursionLimit
  newObjects : context'.newObjects = context.newObjects
  ready : Ready heap context'.descriptor
  followed : Followed l context.descriptor context'.descriptor
  marked : ∃ done, Marked heap done context.descriptor context'.descriptor

theorem Marks.nil {heap : Heap α w} {context : Context α w} (hd : Ready heap context.descriptor) :
    Marks heap [] context context where
  limit := rfl
  newObjects := rfl
  ready := hd
  followed := ⟨fun h => absurd h List.not_mem_nil, fun h => absurd h List.not_mem_nil⟩
  marked := ⟨_, Marked.refl heap _⟩

theorem Marks.cons {heap : Heap α w} {r : Ref α} {l : List (Ref α)} {context context' context'' : Context α w}
    (hd : Ready heap context.descriptor) (h : Marks heap [r] context context')
    (h' : Marks heap l context' context'') : Marks heap (r :: l) context context'' := by
  obtain ⟨done, hm⟩ := h.marked
  obtain ⟨done', hm'⟩ := h'.marked
  constructor
  case limit => rw [h'.limit, h.limit]
  case newObjects => rw [h'.newObjects, h.newObjects]
  case ready => exact h'.ready
  case marked => exact ⟨_, hm.trans hd hm'⟩
  case followed =>
    constructor
    · intro y hy
      cases List.mem_cons.mp hy with
      | inl heq => exact hm'.mono (h.followed.strong (by rw [heq]; exact List.mem_cons_self))
      | inr hin => exact h'.followed.strong hin
    · intro y v hy hv
      cases List.mem_cons.mp hy with
      | inl heq => exact hm'.mono (h.followed.weak (by rw [heq]; exact List.mem_cons_self) hv)
      | inr hin => exact h'.followed.weak hin (hm.mono hv)

section Calls

variable [DecidableEq α]

theorem setDescriptor_self (context : Context α w) (x : α) (d : BitVec w) :
    (context.setDescriptor x d).descriptor x = d := if_pos rfl

theorem setDescriptor_other (context : Context α w) {x y : α} (d : BitVec w) (h : y ≠ x) :
    (context.setDescriptor x d).descriptor y = context.descriptor y := if_neg h

/-- An object that is live may be painted in any colour but white. -/
theorem Ready.setDescriptor {heap : Heap α w} {context : Context α w} (hd : Ready heap context.descriptor) {x : α}
    (hlive : heap.Live x) {d : BitVec w} (hvisited : d < nonVisited) :
    Ready heap (context.setDescriptor x d).descriptor where
  roots := by
    intro y hy
    by_cases heq : y = x
    · rw [heq, Visited, setDescriptor_self]
      exact hvisited
    · rw [Visited, setDescriptor_other context d heq]
      exact hd.roots hy
  sound := by
    intro y hy hv
    by_cases heq : y = x
    · rw [heq]
      exact hlive
    · rw [Visited, setDescriptor_other context d heq] at hv
      exact hd.sound hy hv

end Calls

end Gc
end JJS
