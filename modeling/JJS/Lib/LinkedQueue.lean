import Mathlib.Data.List.Basic
import Mathlib.Tactic.Common

/-!
# JJS.Lib.LinkedQueue

A singly linked queue with a head and a tail pointer. A cell is linked when it is allocated and stays where
it is when it is taken; only the head moves on. The tail is not touched when the queue runs empty.

`Linked q n` says that `n` items were taken and the chain runs through all the others in the order of their
insertion, so what is left in the queue is what was put in, without the first `n` items (`toList_eq`).
-/

namespace LinkedQueue

variable {α : Type}

structure Cell (α : Type) where
  item : α
  next : Option Nat

structure Queue (α : Type) where
  cells : List (Cell α)
  head : Option Nat
  tail : Option Nat

def empty : Queue α := ⟨[], none, none⟩

/-- The link of a cell is written. -/
def link (cells : List (Cell α)) (i next : Nat) : List (Cell α) :=
  cells.modify i fun c => { c with next := some next }

/-- A new cell at the end. The cell at the tail must have no link. -/
def enqueue (q : Queue α) (x : α) : Option (Queue α) :=
  match q.head, q.tail with
  | none, _ => some ⟨q.cells ++ [⟨x, none⟩], some q.cells.length, some q.cells.length⟩
  | some _, none => none
  | some h, some t =>
    if (q.cells[t]?).map Cell.next = some none then
      some ⟨link q.cells t q.cells.length ++ [⟨x, none⟩], some h, some q.cells.length⟩
    else none

/-- The item at the head. -/
def dequeue (q : Queue α) : Option (α × Queue α) :=
  match q.head with
  | none => none
  | some h => (q.cells[h]?).map fun c => (c.item, { q with head := c.next })

/-- The items from a cell on, along the links. -/
def walk (cells : List (Cell α)) : Nat → Option Nat → List α
  | 0, _ => []
  | _ + 1, none => []
  | fuel + 1, some i =>
    match cells[i]? with
    | none => []
    | some c => c.item :: walk cells fuel c.next

def toList (q : Queue α) : List α := walk q.cells q.cells.length q.head

/-- All items that were ever put in. -/
def Queue.items (q : Queue α) : List α := q.cells.map Cell.item

/-- The first `n` items were taken, and the others are linked. -/
structure Linked (q : Queue α) (n : Nat) : Prop where
  taken : n ≤ q.cells.length
  head : q.head = if n < q.cells.length then some n else none
  tail : n < q.cells.length → q.tail = some (q.cells.length - 1)
  next : ∀ i, n ≤ i → i < q.cells.length →
    (q.cells[i]?).map Cell.next = some (if i + 1 < q.cells.length then some (i + 1) else none)

variable {q : Queue α} {n : Nat}

theorem linked_empty : Linked (empty : Queue α) 0 := by
  refine ⟨Nat.le_refl 0, rfl, ?_, ?_⟩
  · intro h; exact absurd h (Nat.lt_irrefl 0)
  · intro i _ h; exact absurd h (Nat.not_lt_zero i)

theorem items_link (cells : List (Cell α)) (i next : Nat) :
    (link cells i next).map Cell.item = cells.map Cell.item := by
  refine List.ext_getElem? ?_
  intro j
  simp only [link, List.getElem?_map, List.getElem?_modify]
  split
  · cases cells[j]? <;> rfl
  · cases cells[j]? <;> rfl

theorem next_link (cells : List (Cell α)) (i next j : Nat) :
    ((link cells i next)[j]?).map Cell.next =
      if i = j then (cells[j]?).map fun _ => some next else (cells[j]?).map Cell.next := by
  rw [link, List.getElem?_modify]
  split
  · cases cells[j]? <;> rfl
  · cases cells[j]? <;> rfl

/-- Adding an item never fails, and it goes to the end. -/
theorem Linked.enqueue (h : Linked q n) (x : α) :
    ∃ q', enqueue q x = some q' ∧ Linked q' n ∧ q'.items = q.items ++ [x] := by
  have htaken := h.taken
  by_cases hn : n < q.cells.length
  · have hhead : q.head = some n := by rw [h.head, if_pos hn]
    have htail := h.tail hn
    have hlast := h.next (q.cells.length - 1) (by omega) (by omega)
    rw [if_neg (by omega)] at hlast
    have hlen : (link q.cells (q.cells.length - 1) q.cells.length).length = q.cells.length := by
      rw [link, List.length_modify]
    refine ⟨_, by rw [LinkedQueue.enqueue, hhead, htail]; exact if_pos hlast, ⟨?_, ?_, ?_, ?_⟩, ?_⟩
    · simp only [List.length_append, hlen, List.length_singleton]
      omega
    · simp only [List.length_append, hlen, List.length_singleton]
      rw [if_pos (by omega)]
    · intro _
      simp [hlen]
    · intro i hi hlt
      simp only [List.length_append, hlen, List.length_singleton] at hlt ⊢
      by_cases hi' : i < q.cells.length
      · have hmore : i + 1 < q.cells.length + 1 := by omega
        rw [List.getElem?_append_left (by omega), next_link, if_pos hmore]
        split
        · rename_i heq
          have hsome : q.cells[i]? = some q.cells[i] := List.getElem?_eq_getElem hi'
          rw [hsome, Option.map_some]
          congr 2
          omega
        · rename_i hne
          rw [h.next i hi hi', if_pos (by omega)]
      · rw [List.getElem?_append_right (by omega), if_neg (by omega)]
        have hzero : i - (link q.cells (q.cells.length - 1) q.cells.length).length = 0 := by omega
        rw [hzero]
        rfl
    · simp only [Queue.items, List.map_append, items_link]
      rfl
  · have hhead : q.head = none := by rw [h.head, if_neg hn]
    refine ⟨_, by rw [LinkedQueue.enqueue, hhead], ⟨?_, ?_, ?_, ?_⟩, ?_⟩
    · simp only [List.length_append, List.length_singleton]
      omega
    · simp only [List.length_append, List.length_singleton]
      rw [if_pos (by omega)]
      congr 1
      omega
    · intro _
      simp
    · intro i hi hlt
      simp only [List.length_append, List.length_singleton] at hlt ⊢
      have hi' : i = q.cells.length := by omega
      rw [hi', List.getElem?_append_right (Nat.le_refl _), Nat.sub_self, if_neg (by omega)]
      rfl
    · simp [Queue.items]

/-- The item that is taken is the oldest one that is left. -/
theorem Linked.dequeue (h : Linked q n) (hn : n < q.items.length) :
    ∃ x q', dequeue q = some (x, q') ∧ q.items[n]? = some x ∧ Linked q' (n + 1) ∧ q'.items = q.items := by
  rw [Queue.items, List.length_map] at hn
  have hhead : q.head = some n := by rw [h.head, if_pos hn]
  have hcell : q.cells[n]? = some q.cells[n] := List.getElem?_eq_getElem hn
  have hnext := h.next n (Nat.le_refl n) hn
  rw [hcell, Option.map_some, Option.some_inj] at hnext
  refine ⟨q.cells[n].item, { q with head := q.cells[n].next }, ?_, ?_, ⟨hn, hnext, ?_, ?_⟩, rfl⟩
  · rw [LinkedQueue.dequeue, hhead]
    simp only [hcell, Option.map_some]
  · rw [Queue.items, List.getElem?_map, hcell]
    rfl
  · intro _
    exact h.tail hn
  · intro i hi hlt
    exact h.next i (by omega) hlt

theorem Linked.dequeue_none (h : Linked q n) (hn : n = q.items.length) : LinkedQueue.dequeue q = none := by
  rw [Queue.items, List.length_map] at hn
  rw [LinkedQueue.dequeue, h.head, if_neg (by omega)]

theorem Linked.walk_eq (h : Linked q n) (fuel : Nat) : ∀ i, n ≤ i → i < q.cells.length →
    q.cells.length ≤ i + fuel → walk q.cells fuel (some i) = q.items.drop i := by
  induction fuel with
  | zero => intro i _ hlt hf; omega
  | succ fuel ih =>
    intro i hi hlt hf
    have hcell : q.cells[i]? = some q.cells[i] := List.getElem?_eq_getElem hlt
    have hnext := h.next i hi hlt
    rw [hcell, Option.map_some, Option.some_inj] at hnext
    have hdrop : q.items.drop i = q.cells[i].item :: q.items.drop (i + 1) := by
      have hi' : i < q.items.length := by rw [Queue.items, List.length_map]; exact hlt
      rw [List.drop_eq_getElem_cons hi']
      simp [Queue.items]
    rw [walk, hcell]
    simp only [hnext]
    rw [hdrop]
    split
    · rename_i hmore
      rw [ih (i + 1) (by omega) hmore (by omega)]
    · rename_i hlast
      have hnil : q.items.drop (i + 1) = [] := by
        rw [List.drop_eq_nil_iff, Queue.items, List.length_map]
        omega
      rw [hnil]
      cases fuel <;> rfl

/-- What is in the queue is what was put in, without what was taken. -/
theorem Linked.toList_eq (h : Linked q n) : toList q = q.items.drop n := by
  rw [toList, h.head]
  split
  · rename_i hn
    exact h.walk_eq _ n (Nat.le_refl n) hn (by omega)
  · rename_i hn
    have hnil : q.items.drop n = [] := by
      rw [List.drop_eq_nil_iff, Queue.items, List.length_map]
      omega
    rw [hnil]
    cases q.cells.length <;> rfl

end LinkedQueue
