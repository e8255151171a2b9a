import Mathlib.Data.List.Perm.Basic
import Mathlib.Data.Nat.ModEq
import Mathlib.Data.Int.GCD

/-!
# JJS.Lib.Tombstone

Open addressing with deletion. A cell of the table is empty, holds an item, or has held one; the path of an item is the
sequence of cells that a search for it visits. A table is filed when no cell before the one of an item, on the path of
the item, is empty (`Filed`), so that a search which goes on until an empty cell comes to the item (`Filed.found`). An
item may be put into the first cell of its path that holds no item (`Filed.put`), and may be replaced by a mark
(`Filed.delete`).

The paths of a fixed odd step, in a table whose size is a power of two, visit every cell (`path_surjective`).
-/

namespace Tombstone

variable {β : Type}

/-- A cell of the table. -/
inductive Cell (β : Type) where
  | empty
  | deleted
  | item (b : β)
deriving DecidableEq

def Cell.isEmpty : Cell β → Bool
  | .empty => true
  | .deleted | .item _ => false

def Cell.item? : Cell β → Option β
  | .item b => some b
  | .empty | .deleted => none

/-- The cell at an index. -/
def cell (cells : List (Cell β)) (i : Nat) : Cell β := cells.getD i .empty

def items (cells : List (Cell β)) : List β := cells.filterMap Cell.item?

/-- The number of empty cells. -/
def empties (cells : List (Cell β)) : Nat := cells.countP Cell.isEmpty

/-- The number of cells that hold no item. -/
def unused (cells : List (Cell β)) : Nat := cells.countP fun c => c.item?.isNone

/-- The search along a path stops at cell `j`. -/
def StopsAt (path : Nat → Nat) (stop : Nat → Bool) (j : Nat) : Prop :=
  ∃ k, path k = j ∧ stop j = true ∧ ∀ i < k, stop (path i) = false

/-- No cell before an item is empty. -/
def Filed (path : β → Nat → Nat) (cells : List (Cell β)) : Prop :=
  ∀ j b, cell cells j = .item b → ∃ k, path b k = j ∧ ∀ i < k, cell cells (path b i) ≠ .empty

variable {cells : List (Cell β)} {path : β → Nat → Nat} {b : β} {c : Cell β} {i j : Nat}

theorem cell_set (h : j < cells.length) (c : Cell β) (i : Nat) :
    cell (cells.set j c) i = if i = j then c else cell cells i := by
  rw [cell, cell, List.getD_eq_getElem?_getD, List.getD_eq_getElem?_getD, List.getElem?_set]
  by_cases hij : j = i
  · rw [if_pos hij, if_pos h, if_pos hij.symm]
    rfl
  · rw [if_neg hij, if_neg (fun heq => hij heq.symm)]

theorem cell_lt (h : cell cells i ≠ .empty) : i < cells.length := by
  by_contra hge
  rw [cell, List.getD_eq_getElem?_getD, List.getElem?_eq_none (Nat.le_of_not_lt hge)] at h
  exact h rfl

theorem mem_items_iff : b ∈ items cells ↔ ∃ i, cell cells i = .item b := by
  rw [items, List.mem_filterMap]
  constructor
  · intro h
    obtain ⟨c, hc, hb⟩ := h
    obtain ⟨i, hi⟩ := List.mem_iff_getElem?.mp hc
    refine ⟨i, ?_⟩
    rw [cell, List.getD_eq_getElem?_getD, hi, Option.getD_some]
    cases c with
    | empty => cases hb
    | deleted => cases hb
    | item b' =>
      cases hb
      rfl
  · intro h
    obtain ⟨i, hi⟩ := h
    refine ⟨.item b, ?_, rfl⟩
    rw [List.mem_iff_getElem?]
    refine ⟨i, ?_⟩
    rw [cell, List.getD_eq_getElem?_getD] at hi
    cases hget : cells[i]? with
    | none => rw [hget] at hi; cases hi
    | some c => rw [hget, Option.getD_some] at hi; rw [hi]

/-! ## Changes of one cell -/

/-- The items, the number of empty cells and that of unused ones, before and after a cell is changed. -/
theorem set_counts (h : j < cells.length) (c : Cell β) :
    ((cell cells j).item?.toList ++ items (cells.set j c)).Perm (c.item?.toList ++ items cells) ∧
      empties (cells.set j c) + (if (cell cells j).isEmpty then 1 else 0) = empties cells + (if c.isEmpty then 1 else 0) ∧
      unused (cells.set j c) + (if (cell cells j).item?.isNone then 1 else 0) =
        unused cells + (if c.item?.isNone then 1 else 0) := by
  induction cells generalizing j with
  | nil => cases h
  | cons d rest ih =>
    cases j with
    | zero =>
      have hcell : cell (d :: rest) 0 = d := rfl
      have hitems : ∀ e : Cell β, items (e :: rest) = e.item?.toList ++ items rest := by
        intro e
        cases e with
        | empty => rfl
        | deleted => rfl
        | item b => rfl
      rw [hcell, List.set_cons_zero, hitems, hitems, empties, empties, unused, unused, List.countP_cons, List.countP_cons,
        List.countP_cons, List.countP_cons]
      refine ⟨?_, by omega, by omega⟩
      rw [← List.append_assoc, ← List.append_assoc]
      exact List.Perm.append_right _ List.perm_append_comm
    | succ j =>
      obtain ⟨hperm, hempty, hunused⟩ := ih (Nat.lt_of_succ_lt_succ h)
      have hcell : cell (d :: rest) (j + 1) = cell rest j := rfl
      rw [hcell, List.set_cons_succ]
      refine ⟨?_, ?_, ?_⟩
      · cases d with
        | empty => exact hperm
        | deleted => exact hperm
        | item b =>
          show (_ ++ b :: items _).Perm (_ ++ b :: items _)
          exact (List.perm_middle.trans (hperm.cons b)).trans List.perm_middle.symm
      · rw [empties, empties, List.countP_cons, List.countP_cons, ← empties, ← empties]
        omega
      · rw [unused, unused, List.countP_cons, List.countP_cons, ← unused, ← unused]
        omega

/-- An item is put into a cell that holds none. -/
theorem items_put (h : j < cells.length) (hnone : (cell cells j).item? = none) :
    (items (cells.set j (.item b))).Perm (b :: items cells) := by
  have hperm := (set_counts h (.item b)).1
  rw [hnone] at hperm
  exact hperm

theorem items_delete (hitem : cell cells j = .item b) : (b :: items (cells.set j .deleted)).Perm (items cells) := by
  have hj := @cell_lt β cells j (by rw [hitem]; exact fun h => by cases h)
  have hperm := (set_counts hj .deleted).1
  rw [hitem] at hperm
  exact hperm

theorem Filed.put (hfiled : Filed path cells) (hj : j < cells.length)
    (h : StopsAt (path b) (fun i => (cell cells i).item?.isNone) j) : Filed path (cells.set j (.item b)) := by
  obtain ⟨k, hk, -, hbefore⟩ := h
  intro i b' hb
  rw [cell_set hj] at hb
  split at hb
  · rename_i hij
    cases hb
    refine ⟨k, hk.trans hij.symm, ?_⟩
    intro m hm
    rw [cell_set hj]
    split
    · exact fun h => by cases h
    · intro hempty
      have hfull : (cell cells (path b m)).item?.isNone = false := hbefore m hm
      rw [hempty] at hfull
      cases hfull
  · obtain ⟨m, hm, hfull⟩ := hfiled i b' hb
    refine ⟨m, hm, ?_⟩
    intro x hx
    rw [cell_set hj]
    split
    · exact fun h => by cases h
    · exact hfull x hx

theorem Filed.delete (hfiled : Filed path cells) (hj : j < cells.length) : Filed path (cells.set j .deleted) := by
  intro i b' hb
  rw [cell_set hj] at hb
  split at hb
  · cases hb
  · obtain ⟨m, hm, hfull⟩ := hfiled i b' hb
    refine ⟨m, hm, ?_⟩
    intro x hx
    rw [cell_set hj]
    split
    · exact fun h => by cases h
    · exact hfull x hx

/-- A search along the path of an item that stops at this item and at empty cells only comes to it. -/
theorem Filed.found {stop : Nat → Bool} (hfiled : Filed path cells) (hb : b ∈ items cells)
    (hstop : ∀ i, cell cells i = .item b → stop i = true)
    (honly : ∀ i, stop i = true → cell cells i = .item b ∨ cell cells i = .empty) (h : StopsAt (path b) stop j) :
    cell cells j = .item b := by
  obtain ⟨k, hk, hat, hbefore⟩ := h
  obtain ⟨i, hi⟩ := mem_items_iff.mp hb
  obtain ⟨m, hm, hfull⟩ := hfiled i b hi
  cases honly j hat with
  | inl hitem => exact hitem
  | inr hempty =>
    -- the empty cell would come before the item, or the search would have stopped at the item
    exfalso
    rcases Nat.lt_trichotomy k m with hlt | heq | hgt
    · exact hfull k hlt (by rw [hk]; exact hempty)
    · rw [← hk, heq, hm, hi] at hempty
      cases hempty
    · have hpassed := hbefore m hgt
      rw [hm, hstop i hi] at hpassed
      cases hpassed

/-! ## Empty tables -/

theorem cell_replicate (n i : Nat) : cell (List.replicate n (.empty : Cell β)) i = .empty := by
  rw [cell, List.getD_eq_getElem?_getD, List.getElem?_replicate]
  split
  · rfl
  · rfl

theorem filed_replicate (path : β → Nat → Nat) (n : Nat) : Filed path (List.replicate n .empty) := by
  intro j b h
  rw [cell_replicate] at h
  cases h

/-! ## Paths of a fixed step -/

/-- The cell after `k` steps. -/
def stepPath (size start step k : Nat) : Nat := (start + k * step) % size

/-- A step that is prime to the size visits every cell within one round. -/
theorem path_surjective {size step : Nat} (hcoprime : Nat.Coprime step size) (start : Nat) (hj : j < size) :
    ∃ k < size, stepPath size start step k = j := by
  have hpos : 0 < size := by omega
  obtain ⟨k, hk, hmul⟩ := Nat.exists_mul_mod_eq_of_coprime (j + (size - start % size)) hcoprime hpos.ne'
  refine ⟨k, hk, ?_⟩
  have hstart := Nat.mod_lt start hpos
  have hdiv := Nat.mod_add_div start size
  have hsum : start + (j + (size - start % size)) = j + size * (1 + start / size) := by
    rw [Nat.mul_add, Nat.mul_one]
    omega
  rw [stepPath, Nat.mul_comm, Nat.add_mod, hmul, ← Nat.add_mod, hsum, Nat.add_mul_mod_self_left, Nat.mod_eq_of_lt hj]

/-- Within one round it comes to no cell again. -/
theorem path_injective {size step : Nat} (hcoprime : Nat.Coprime step size) (start : Nat) {i k : Nat} (hi : i < size)
    (hk : k < size) (heq : stepPath size start step i = stepPath size start step k) : i = k := by
  have hmul : i * step ≡ k * step [MOD size] := Nat.ModEq.add_left_cancel' start heq
  have hmod := Nat.ModEq.cancel_right_of_coprime (Nat.Coprime.symm hcoprime) hmul
  exact Nat.ModEq.eq_of_lt_of_lt hmod hi hk

end Tombstone
