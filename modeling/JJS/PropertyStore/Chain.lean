import JJS.PropertyStore.Hashmap

/-!
# JJS.PropertyStore.Chain

The chain of property pairs: which property a pointer refers to, and which one has a name. The hashmap and the loop over
the chain find the same property (`find_spec`, `findLoop_spec`).
-/

namespace JJS
namespace PropertyStore

open Tombstone (cell items)

variable {κ α : Type} {strings : HeapStrings κ} {pairs : List (Pair α)} {position : Position} {property : Property α}

/-! ## Pointers -/

theorem mem_slots_pair {pair : Pair α} : (position, property) ∈ pair.slots ↔
    position.pair = pair.cp ∧ (if position.second then pair.second else pair.first) = some property := by
  obtain ⟨cp, first, second⟩ := pair
  obtain ⟨pair, isSecond⟩ := position
  cases isSecond <;> cases first <;> cases second <;>
    simp [Pair.slots, eq_comm, and_comm]

theorem mem_slots : (position, property) ∈ slots pairs ↔ ∃ pair ∈ pairs, position.pair = pair.cp ∧
    (if position.second then pair.second else pair.first) = some property := by
  rw [slots, List.mem_flatMap]
  simp only [mem_slots_pair]

/-- A pointer to a property of a chain with different pairs. -/
theorem propertyAt_iff (hdistinct : (pairs.map Pair.cp).Nodup) :
    propertyAt pairs position = some property ↔ (position, property) ∈ slots pairs := by
  rw [mem_slots, propertyAt, Option.bind_eq_some_iff]
  constructor
  · intro h
    obtain ⟨pair, hfind, hproperty⟩ := h
    have hcp := List.find?_some hfind
    exact ⟨pair, List.mem_of_find?_eq_some hfind, (of_decide_eq_true hcp).symm, hproperty⟩
  · intro h
    obtain ⟨pair, hin, hcp, hproperty⟩ := h
    refine ⟨pair, ?_, hproperty⟩
    rw [List.find?_eq_some_iff_append]
    obtain ⟨before, after, heq⟩ := List.append_of_mem hin
    refine ⟨decide_eq_true hcp.symm, before, after, heq, ?_⟩
    intro other hother
    rw [heq, List.map_append, List.nodup_append] at hdistinct
    have hne := hdistinct.2.2 other.cp (List.mem_map_of_mem hother) pair.cp (List.mem_map_of_mem List.mem_cons_self)
    rw [hcp]
    simp [hne]

theorem slots_nodup_pair (pair : Pair α) : (pair.slots.map Prod.fst).Nodup := by
  obtain ⟨cp, first, second⟩ := pair
  cases first <;> cases second <;> simp [Pair.slots]

theorem mem_positions {pairs : List (Pair α)} (h : position ∈ (slots pairs).map Prod.fst) :
    position.pair ∈ pairs.map Pair.cp := by
  obtain ⟨slot, hslot, heq⟩ := List.mem_map.mp h
  obtain ⟨pair, hin, hcp, -⟩ := mem_slots.mp hslot
  rw [← heq, hcp]
  exact List.mem_map_of_mem hin

theorem slots_cons (pair : Pair α) (pairs : List (Pair α)) : slots (pair :: pairs) = pair.slots ++ slots pairs :=
  List.flatMap_cons

theorem slots_nodup (hdistinct : (pairs.map Pair.cp).Nodup) : ((slots pairs).map Prod.fst).Nodup := by
  induction pairs with
  | nil => exact List.nodup_nil
  | cons pair pairs ih =>
    rw [List.map_cons, List.nodup_cons] at hdistinct
    rw [slots_cons, List.map_append, List.nodup_append]
    refine ⟨slots_nodup_pair pair, ih hdistinct.2, ?_⟩
    intro position hposition other hother heq
    obtain ⟨slot, hslot, hfst⟩ := List.mem_map.mp hposition
    have hcp := (mem_slots_pair.mp hslot).1
    rw [hfst] at hcp
    have hin := mem_positions hother
    rw [← heq, hcp] at hin
    exact hdistinct.1 hin

/-! ## Names -/

section Names

variable [DecidableEq κ]

theorem sameName_refl (name : Name) : sameName strings name name = true := by
  cases name <;> simp [sameName]

theorem sameName_symm {a b : Name} (h : sameName strings a b = true) : sameName strings b a = true := by
  cases a <;> cases b <;> simp_all [sameName]

theorem sameName_trans {a b c : Name} (h : sameName strings a b = true) (h' : sameName strings b c = true) :
    sameName strings a c = true := by
  cases a <;> cases b <;> cases c <;> simp_all [sameName]

/-- Equal names have equal hashes. -/
theorem nameHash_eq {a b : Name} (h : sameName strings a b = true) : nameHash strings a = nameHash strings b := by
  cases a with
  | ptr cp =>
    cases b with
    | ptr cp' =>
      have hget : strings.get cp = strings.get cp' := of_decide_eq_true h
      rw [nameHash, nameHash, hget]
    | direct type value => cases h
  | direct type value =>
    cases b with
    | ptr cp => cases h
    | direct type' value' =>
      have hboth := of_decide_eq_true h
      rw [nameHash, nameHash, hboth.2]

/-- A chain of different pairs, which have different names. -/
structure ChainOk (strings : HeapStrings κ) (pairs : List (Pair α)) : Prop where
  nonzero : 0 ∉ pairs.map Pair.cp
  distinct : (pairs.map Pair.cp).Nodup
  names : (slots pairs).Pairwise fun a b => sameName strings a.2.name b.2.name = false

/-- The property of a name. -/
def lookup (strings : HeapStrings κ) (pairs : List (Pair α)) (name : Name) : Option Position :=
  ((slots pairs).find? fun slot => sameName strings slot.2.name name).map Prod.fst

theorem ChainOk.pair_ne (h : ChainOk strings pairs) {slot : Position × Property α} (hslot : slot ∈ slots pairs) :
    slot.1.pair ≠ 0 := by
  intro hzero
  have hin := mem_positions (List.mem_map_of_mem hslot)
  rw [hzero] at hin
  exact h.nonzero hin

/-- There is at most one property of a name. -/
theorem ChainOk.unique (h : ChainOk strings pairs) {a b : Position × Property α} (ha : a ∈ slots pairs)
    (hb : b ∈ slots pairs) (hsame : sameName strings a.2.name b.2.name = true) : a = b := by
  by_contra hne
  have hsymm : ∀ x y : Position × Property α, sameName strings x.2.name y.2.name = false →
      sameName strings y.2.name x.2.name = false := by
    intro x y hxy
    rw [Bool.eq_false_iff]
    intro hyx
    rw [sameName_symm hyx] at hxy
    cases hxy
  have hsymmetric : Std.Symm fun a b : Position × Property α => sameName strings a.2.name b.2.name = false := ⟨hsymm⟩
  have hdiffer := h.names.forall ha hb hne
  rw [hdiffer] at hsame
  cases hsame

theorem lookup_some (h : ChainOk strings pairs) {name : Name} (hin : (position, property) ∈ slots pairs)
    (hsame : sameName strings property.name name = true) : lookup strings pairs name = some position := by
  rw [lookup]
  cases hfind : (slots pairs).find? fun slot => sameName strings slot.2.name name with
  | none =>
    have hnone := List.find?_eq_none.mp hfind _ hin
    exact absurd hsame hnone
  | some slot =>
    have hslot := List.mem_of_find?_eq_some hfind
    have hname : sameName strings slot.2.name name = true := by simpa using List.find?_some hfind
    rw [h.unique hslot hin (sameName_trans hname (sameName_symm hsame))]
    rfl

theorem lookup_none {name : Name} (h : ∀ slot ∈ slots pairs, sameName strings slot.2.name name = false) :
    lookup strings pairs name = none := by
  rw [lookup, List.find?_eq_none.mpr, Option.map_none]
  intro slot hslot
  rw [h slot hslot]
  exact Bool.false_ne_true

theorem lookup_mem {name : Name} (h : lookup strings pairs name = some position) :
    ∃ property, (position, property) ∈ slots pairs ∧ sameName strings property.name name = true := by
  rw [lookup] at h
  obtain ⟨slot, hfind, hfst⟩ := Option.map_eq_some_iff.mp h
  rw [← hfst]
  exact ⟨slot.2, List.mem_of_find?_eq_some hfind, by simpa using List.find?_some hfind⟩

/-! ## Searches -/

/-- The hashmap finds the property of the name. -/
theorem find_spec {h : Hashmap} (hchain : ChainOk strings pairs) (hok : HashmapOk strings (slots pairs) h) (name : Name) :
    ecmaPropertyHashmapFind strings pairs h name = some (lookup strings pairs name) := by
  obtain ⟨n, hmax⟩ := hok.size
  obtain ⟨hashes, hhashes, hfiled⟩ := hok.filed
  have hnull := hok.null
  have hpositive := hok.positive
  let stop : Entry → Bool := fun entry =>
    if entry.pair = 0 then !entry.flag
    else (propertyAt pairs ⟨entry.pair, entry.flag⟩).any fun property => sameName strings property.name name
  -- a search stops at entries that were never used, and at a property of the name
  have hstop_empty : ∀ i, cell h.cells i = .empty → stop (h.entry i) = true := by
    intro i hi
    rw [cell_cells] at hi
    obtain ⟨hzero, hflag⟩ := toCell_empty_iff.mp hi
    show (if (h.entry i).pair = 0 then !(h.entry i).flag else _) = true
    rw [if_pos hzero, hflag]
    rfl
  have hstop : ∀ i, stop (h.entry i) = true → cell h.cells i = .empty ∨
      ∃ position property, cell h.cells i = .item position ∧ (position, property) ∈ slots pairs ∧
        sameName strings property.name name = true := by
    intro i hi
    have hi' : (if (h.entry i).pair = 0 then !(h.entry i).flag else
      (propertyAt pairs ⟨(h.entry i).pair, (h.entry i).flag⟩).any fun property => sameName strings property.name name) =
        true := hi
    rw [cell_cells]
    split at hi'
    · rename_i hzero
      refine Or.inl (toCell_empty_iff.mpr ⟨hzero, ?_⟩)
      simpa using hi'
    · rename_i hpair
      obtain ⟨property, hat, hname⟩ := (Option.any_eq_true _ _).mp hi'
      exact Or.inr ⟨_, property, toCell_item_iff.mpr ⟨hpair, rfl⟩, (propertyAt_iff hchain.distinct).mp hat, hname⟩
  have hexists : ∃ j < 2 ^ (n + 5), stop (h.entry j) = true := by
    obtain ⟨c, hc, hempty⟩ := List.countP_pos_iff.mp (show 0 < Tombstone.empties h.cells by omega)
    obtain ⟨j, hj, hjc⟩ := List.mem_iff_getElem.mp hc
    refine ⟨j, by rw [length_cells, hok.length, hmax] at hj; exact hj, hstop_empty j ?_⟩
    rw [cell, List.getD_eq_getElem?_getD, List.getElem?_eq_getElem hj, hjc, Option.getD_some]
    cases c with
    | empty => rfl
    | deleted => cases hempty
    | item _ => cases hempty
  obtain ⟨j, hj, hsearch, hstops⟩ := search_spec hmax (nameHash strings name) hexists
  rw [ecmaPropertyHashmapFind, hsearch]
  show some (if (h.entry j).pair = 0 then none else some (⟨(h.entry j).pair, (h.entry j).flag⟩ : Position)) = _
  congr 1
  cases hlookup : lookup strings pairs name with
  | some position =>
    obtain ⟨property, hin, hsame⟩ := lookup_mem hlookup
    have hhash : hashes position = nameHash strings name := (hhashes _ hin).trans (nameHash_eq hsame)
    rw [← hhash, ← hmax] at hstops
    have hat := hfiled.found (hok.items.mem_iff.mpr (List.mem_map_of_mem hin)) ?_ ?_ hstops
    · rw [cell_cells] at hat
      obtain ⟨hpair, hposition⟩ := toCell_item_iff.mp hat
      rw [if_neg hpair, hposition]
    · intro i hi
      rw [cell_cells] at hi
      obtain ⟨hpair, hposition⟩ := toCell_item_iff.mp hi
      show (if (h.entry i).pair = 0 then !(h.entry i).flag else _) = true
      rw [if_neg hpair, hposition, (propertyAt_iff hchain.distinct).mpr hin]
      exact hsame
    · intro i hi
      cases hstop i hi with
      | inl hempty => exact Or.inr hempty
      | inr hother =>
        obtain ⟨other, property', hcell, hin', hsame'⟩ := hother
        have heq := hchain.unique hin' hin (sameName_trans hsame' (sameName_symm hsame))
        cases heq
        exact Or.inl hcell
  | none =>
    obtain ⟨_, _, hat, _⟩ := hstops
    cases hstop j hat with
    | inl hempty =>
      rw [cell_cells] at hempty
      rw [if_pos (toCell_empty_iff.mp hempty).1]
    | inr hfound =>
      obtain ⟨position, property, -, hin, hsame⟩ := hfound
      rw [lookup_some hchain hin hsame] at hlookup
      cases hlookup

/-- So does the loop over the chain. -/
theorem findLoop_spec (name : Name) (pairs : List (Pair α)) :
    (findLoop strings name pairs).1 = lookup strings pairs name := by
  induction pairs with
  | nil => rfl
  | cons pair pairs ih =>
    obtain ⟨cp, first, second⟩ := pair
    rw [lookup, slots_cons, List.find?_append, findLoop]
    rw [lookup] at ih
    cases first with
    | none =>
      cases second with
      | none => simpa [Pair.slots] using ih
      | some q =>
        by_cases hq : sameName strings q.name name = true
        · simp [Pair.slots, hq]
        · simpa [Pair.slots, hq] using ih
    | some p =>
      by_cases hp : sameName strings p.name name = true
      · simp [Pair.slots, hp]
      · cases second with
        | none => simpa [Pair.slots, hp] using ih
        | some q =>
          by_cases hq : sameName strings q.name name = true
          · simp [Pair.slots, hp, hq]
          · simpa [Pair.slots, hp, hq] using ih

end Names

end PropertyStore
end JJS
