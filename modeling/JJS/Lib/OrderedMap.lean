import Mathlib.Data.List.Nodup

/-!
# JJS.Lib.OrderedMap

Insertion-ordered association lists: a key that is set again keeps its place and takes the new
value, a key that is set for the first time goes to the end, and erasing forgets the place.

The lemmas come in pairs: what an operation does at an entry that is split off the list
(`entries = l ++ (k, v) :: r`), and what it does when the key has no entry.
-/

namespace OrderedMap

/-- The entries in the order of insertion; no two of them have one key. -/
structure Table (κ ν : Type) where
  entries : List (κ × ν)
  nodup : (entries.map Prod.fst).Nodup

variable {κ ν : Type}

namespace Table

def empty : Table κ ν := ⟨[], List.nodup_nil⟩

def keys (m : Table κ ν) : List κ := m.entries.map Prod.fst

variable {m : Table κ ν} {l r : List (κ × ν)} {k : κ} {v w : ν}

/-- Keys are not repeated, so the other entries are about other keys. -/
theorem ne_of_split (h : m.entries = l ++ (k, v) :: r) : (∀ e ∈ l, e.1 ≠ k) ∧ ∀ e ∈ r, e.1 ≠ k := by
  have hn := m.nodup
  rw [h, List.map_append, List.map_cons, List.nodup_append] at hn
  obtain ⟨-, hr, hlr⟩ := hn
  constructor
  · intro e he
    exact hlr e.1 (List.mem_map_of_mem he) k List.mem_cons_self
  · intro e he hek
    exact (List.nodup_cons.mp hr).1 (List.mem_map.mpr ⟨e, he, hek⟩)

theorem mem_keys_of_split (h : m.entries = l ++ (k, v) :: r) : k ∈ m.keys := by
  simp [keys, h]

variable [DecidableEq κ]

def lookup (m : Table κ ν) (k : κ) : Option ν := m.entries.lookup k

/-- The entries after `k` is set to `v`: replaced in place, or a new entry at the end. -/
def setEntries (entries : List (κ × ν)) (k : κ) (v : ν) : List (κ × ν) :=
  if k ∈ entries.map Prod.fst then entries.map fun e => if e.1 = k then (k, v) else e
  else entries ++ [(k, v)]

theorem map_fst_replace (entries : List (κ × ν)) (k : κ) (v : ν) :
    (entries.map fun e => if e.1 = k then (k, v) else e).map Prod.fst = entries.map Prod.fst := by
  induction entries with
  | nil => rfl
  | cons e es ih =>
    simp only [List.map_cons, ih]
    split
    · rename_i h; rw [h]
    · rfl

theorem nodup_setEntries (m : Table κ ν) (k : κ) (v : ν) :
    ((setEntries m.entries k v).map Prod.fst).Nodup := by
  unfold setEntries
  split
  · rw [map_fst_replace]; exact m.nodup
  · rename_i h
    rw [List.map_append, List.nodup_append]
    refine ⟨m.nodup, by simp, ?_⟩
    intro a ha b hb hab
    simp only [List.map_cons, List.map_nil, List.mem_singleton] at hb
    exact h (hb ▸ hab ▸ ha)

def set (m : Table κ ν) (k : κ) (v : ν) : Table κ ν :=
  ⟨setEntries m.entries k v, nodup_setEntries m k v⟩

def erase (m : Table κ ν) (k : κ) : Table κ ν :=
  ⟨m.entries.filter fun e => e.1 ≠ k, m.nodup.sublist (List.filter_sublist.map Prod.fst)⟩

/-! ## At an entry that is there -/

theorem map_replace_of_ne (h : ∀ e ∈ l, e.1 ≠ k) : (l.map fun e => if e.1 = k then (k, w) else e) = l := by
  induction l with
  | nil => rfl
  | cons e es ih =>
    rw [List.map_cons, if_neg (h e List.mem_cons_self), ih fun x hx => h x (List.mem_cons_of_mem e hx)]

theorem entries_set_of_split (h : m.entries = l ++ (k, v) :: r) : (m.set k w).entries = l ++ (k, w) :: r := by
  obtain ⟨hl, hr⟩ := ne_of_split h
  have hmem : k ∈ m.entries.map Prod.fst := mem_keys_of_split h
  show setEntries m.entries k w = _
  rw [setEntries, if_pos hmem, h, List.map_append, List.map_cons, map_replace_of_ne hl, map_replace_of_ne hr,
    if_pos rfl]

theorem entries_erase_of_split (h : m.entries = l ++ (k, v) :: r) : (m.erase k).entries = l ++ r := by
  obtain ⟨hl, hr⟩ := ne_of_split h
  show m.entries.filter _ = _
  rw [h, List.filter_append, List.filter_cons_of_neg (by simp), List.filter_eq_self.mpr (by simpa using hl),
    List.filter_eq_self.mpr (by simpa using hr)]

theorem lookup_of_split (h : m.entries = l ++ (k, v) :: r) : m.lookup k = some v := by
  obtain ⟨hl, -⟩ := ne_of_split h
  rw [lookup, h]
  clear h
  induction l with
  | nil => simp
  | cons e es ih =>
    have hne : (k == e.1) = false := by simpa using (hl e List.mem_cons_self).symm
    rw [List.cons_append, List.lookup_cons, hne]
    exact ih fun x hx => hl x (List.mem_cons_of_mem e hx)

/-! ## At a key without an entry -/

theorem entries_set_of_not_mem (h : k ∉ m.keys) : (m.set k w).entries = m.entries ++ [(k, w)] :=
  if_neg h

theorem erase_of_not_mem (h : k ∉ m.keys) : (m.erase k).entries = m.entries := by
  refine List.filter_eq_self.mpr fun e he => ?_
  have hne : e.1 ≠ k := fun hek => h (hek ▸ List.mem_map_of_mem he)
  simpa using hne

theorem lookup_of_not_mem (h : k ∉ m.keys) : m.lookup k = none := by
  rw [lookup, List.lookup_eq_none_iff]
  intro e he
  have hne : e.1 ≠ k := fun hek => h (hek ▸ List.mem_map_of_mem he)
  simpa using hne.symm

end Table
end OrderedMap
