import JJS.FastArray.Content

/-!
# JJS.FastArray.Properties

The property pairs of an array as one list of properties, and what each function does to it.
-/

namespace JJS
namespace FastArray

open Strings (directStringMaxImm uint32Max)

variable {κ α : Type}

/-- The slots of the pairs, in their order. -/
def slots (pairs : List (PropertyPair κ α)) : List (Option (Property κ α)) :=
  pairs.flatMap fun pair => [pair.first, pair.second]

/-- The properties of the pairs. -/
def properties (pairs : List (PropertyPair κ α)) : List (Property κ α) := (slots pairs).reduceOption

theorem reduce_cons (slot : Option (Property κ α)) (rest : List (Option (Property κ α))) :
    (slot :: rest).reduceOption = slot.toList ++ rest.reduceOption := by
  cases slot with
  | none => rw [List.reduceOption_cons_of_none]; rfl
  | some property => rw [List.reduceOption_cons_of_some]; rfl

theorem slots_cons (pair : PropertyPair κ α) (pairs : List (PropertyPair κ α)) :
    slots (pair :: pairs) = pair.first :: pair.second :: slots pairs := rfl

theorem properties_cons (pair : PropertyPair κ α) (pairs : List (PropertyPair κ α)) :
    properties (pair :: pairs) = pair.first.toList ++ (pair.second.toList ++ properties pairs) := by
  rw [properties, slots_cons, reduce_cons, reduce_cons]
  rfl

theorem getPairs_ofPairs (pairs : List (PropertyPair κ α)) : (PropertyList.ofPairs pairs).getPairs = pairs := by
  cases pairs with
  | nil => rfl
  | cons pair rest => rfl

theorem properties_create (property : Property κ α) (pairs : List (PropertyPair κ α)) :
    properties (ecmaCreateProperty property pairs) = property :: properties pairs := by
  cases pairs with
  | nil => rfl
  | cons pair rest =>
    obtain ⟨first, second⟩ := pair
    cases first with
    | none => rfl
    | some other => rfl

theorem properties_linkPair (pair : PropertyPair κ α) (pairs : List (PropertyPair κ α)) :
    properties (linkPair pair pairs) = properties (pair :: pairs) := by
  obtain ⟨first, second⟩ := pair
  cases first with
  | none =>
    cases second with
    | none => rfl
    | some property => rfl
  | some property => rfl

/-! ## Lists of properties -/

section Lookup

variable [DecidableEq κ] {name other : Name κ} {list : List (Property κ α)}

/-- The property of the name. -/
def lookup (name : Name κ) (list : List (Property κ α)) : Option (Property κ α) :=
  list.find? fun property => property.name = name

theorem lookup_cons (name : Name κ) (property : Property κ α) (list : List (Property κ α)) :
    lookup name (property :: list) = if property.name = name then some property else lookup name list := by
  rw [lookup, List.find?_cons]
  by_cases h : property.name = name
  · rw [if_pos h, decide_eq_true h]
  · rw [if_neg h, decide_eq_false h]
    rfl

theorem lookup_eq_none_iff : lookup name list = none ↔ name ∉ list.map Property.name := by
  rw [lookup, List.find?_eq_none, List.mem_map]
  constructor
  · intro h hex
    obtain ⟨property, hin, heq⟩ := hex
    exact h property hin (decide_eq_true heq)
  · intro h property hin heq
    exact h ⟨property, hin, of_decide_eq_true heq⟩

theorem lookup_some {property : Property κ α} (h : lookup name list = some property) :
    property ∈ list ∧ property.name = name := by
  refine ⟨List.mem_of_find?_eq_some h, ?_⟩
  have hname := List.find?_some h
  exact of_decide_eq_true hname

theorem lookup_of_mem (hnodup : (list.map Property.name).Nodup) {property : Property κ α} (h : property ∈ list) :
    lookup property.name list = some property := by
  induction list with
  | nil => cases h
  | cons head rest ih =>
    rw [List.map_cons, List.nodup_cons] at hnodup
    rw [lookup_cons]
    cases List.mem_cons.mp h with
    | inl heq => rw [heq, if_pos rfl]
    | inr hin =>
      have hne : head.name ≠ property.name := fun heq =>
        hnodup.1 (by rw [heq]; exact List.mem_map_of_mem hin)
      rw [if_neg hne]
      exact ih hnodup.2 hin

/-- A list that keeps some of the properties, where the names are different. -/
theorem lookup_filter (hnodup : (list.map Property.name).Nodup) (keep : Property κ α → Bool) (name : Name κ) :
    lookup name (list.filter keep) = (lookup name list).filter keep := by
  induction list with
  | nil => rfl
  | cons head rest ih =>
    rw [List.map_cons, List.nodup_cons] at hnodup
    have hrest := ih hnodup.2
    rw [lookup_cons]
    by_cases hkeep : keep head = true
    · rw [List.filter_cons_of_pos hkeep, lookup_cons, hrest]
      split
      · rw [Option.filter_some_pos hkeep]
      · rfl
    · rw [List.filter_cons_of_neg hkeep, hrest]
      split
      · rename_i heq
        rw [lookup_eq_none_iff.mpr (by rw [← heq]; exact hnodup.1), Option.filter_some_neg (Bool.eq_false_iff.mpr hkeep)]
        rfl
      · rfl

end Lookup

/-! ## The slot of a name -/

section Slot

variable [DecidableEq κ] {name other : Name κ}

/-- The first slot that holds the name is changed. -/
def changeSlot (name : Name κ) (change : Option (Property κ α) → Option (Property κ α)) :
    List (Option (Property κ α)) → List (Option (Property κ α))
  | [] => []
  | slot :: rest => if slotIs name slot then change slot :: rest else slot :: changeSlot name change rest

theorem slotIs_some (name : Name κ) (property : Property κ α) :
    slotIs name (some property) = decide (property.name = name) := rfl

theorem changeSlot_none (name : Name κ) (change : Option (Property κ α) → Option (Property κ α))
    (rest : List (Option (Property κ α))) : changeSlot name change (none :: rest) = none :: changeSlot name change rest := rfl

theorem changeSlot_some (name : Name κ) (change : Option (Property κ α) → Option (Property κ α)) (property : Property κ α)
    (rest : List (Option (Property κ α))) : changeSlot name change (some property :: rest) =
      if property.name = name then change (some property) :: rest else some property :: changeSlot name change rest := by
  rw [changeSlot, slotIs_some]
  simp only [decide_eq_true_eq]

theorem slots_update (name : Name κ) (update : Property κ α → Property κ α) (pairs : List (PropertyPair κ α)) :
    slots (updateProperty name update pairs) = changeSlot name (Option.map update) (slots pairs) := by
  induction pairs with
  | nil => rfl
  | cons pair rest ih =>
    rw [updateProperty, slots_cons, changeSlot]
    split
    · rfl
    · rw [changeSlot]
      split
      · rfl
      · rw [slots_cons, ih]

theorem properties_delete (name : Name κ) (pairs : List (PropertyPair κ α)) :
    properties (ecmaDeleteProperty name pairs) = (changeSlot name (fun _ => none) (slots pairs)).reduceOption := by
  induction pairs with
  | nil => rfl
  | cons pair rest ih =>
    rw [ecmaDeleteProperty, slots_cons, changeSlot]
    split
    · exact properties_linkPair _ rest
    · rw [changeSlot]
      split
      · exact properties_linkPair _ rest
      · rw [properties_cons, ih, reduce_cons, reduce_cons]

theorem find_eq (name : Name κ) (pairs : List (PropertyPair κ α)) :
    ecmaFindNamedProperty name pairs = lookup name (properties pairs) := by
  have hslot : ∀ (slot : Option (Property κ α)) (rest : List (Option (Property κ α))),
      lookup name (slot :: rest).reduceOption = if slotIs name slot then slot else lookup name rest.reduceOption := by
    intro slot rest
    cases slot with
    | none => rw [List.reduceOption_cons_of_none]; rfl
    | some property =>
      rw [List.reduceOption_cons_of_some, lookup_cons, slotIs_some]
      simp only [decide_eq_true_eq]
  induction pairs with
  | nil => rfl
  | cons pair rest ih => rw [ecmaFindNamedProperty, ih, properties, properties, slots_cons, hslot, hslot]

section Change

variable {update : Property κ α → Property κ α} (hname : ∀ property, (update property).name = property.name)

/-- The change for every property of the name. -/
def updated (name : Name κ) (update : Property κ α → Property κ α) (property : Property κ α) : Property κ α :=
  if property.name = name then update property else property

theorem map_updated_of_ne (hne : other ≠ name) (list : List (Property κ α)) :
    (lookup other list).map (updated name update) = lookup other list := by
  cases h : lookup other list with
  | none => rfl
  | some property =>
    have hother := (lookup_some h).2
    rw [Option.map_some, updated, if_neg (by rw [hother]; exact hne)]

include hname in
theorem lookup_changeSlot (name other : Name κ) (list : List (Option (Property κ α))) :
    lookup other (changeSlot name (Option.map update) list).reduceOption =
      (lookup other list.reduceOption).map (updated name update) := by
  induction list with
  | nil => rfl
  | cons slot rest ih =>
    cases slot with
    | none => rw [changeSlot_none, List.reduceOption_cons_of_none, List.reduceOption_cons_of_none, ih]
    | some property =>
      rw [changeSlot_some, List.reduceOption_cons_of_some, lookup_cons]
      by_cases h : property.name = name
      · rw [if_pos h, Option.map_some, List.reduceOption_cons_of_some, lookup_cons, hname]
        by_cases hother : property.name = other
        · rw [if_pos hother, if_pos hother, Option.map_some, updated, if_pos h]
        · rw [if_neg hother, if_neg hother, map_updated_of_ne (fun heq => hother (h.trans heq.symm))]
      · rw [if_neg h, List.reduceOption_cons_of_some, lookup_cons, ih]
        split
        · rw [Option.map_some, updated, if_neg h]
        · rfl

include hname in
theorem names_changeSlot (name : Name κ) (list : List (Option (Property κ α))) :
    (changeSlot name (Option.map update) list).reduceOption.map Property.name = list.reduceOption.map Property.name := by
  induction list with
  | nil => rfl
  | cons slot rest ih =>
    rw [changeSlot]
    split
    · cases slot with
      | none => rfl
      | some property =>
        rw [Option.map_some, List.reduceOption_cons_of_some, List.reduceOption_cons_of_some, List.map_cons, List.map_cons,
          hname]
    · rw [reduce_cons, reduce_cons, List.map_append, List.map_append, ih]

/-- What is found after a change of the property of a name. -/
theorem lookup_update (hname : ∀ property, (update property).name = property.name) (name other : Name κ)
    (pairs : List (PropertyPair κ α)) : lookup other (properties (updateProperty name update pairs)) =
      (lookup other (properties pairs)).map (updated name update) := by
  rw [properties, slots_update]
  exact lookup_changeSlot hname name other (slots pairs)

theorem names_update (hname : ∀ property, (update property).name = property.name) (name : Name κ)
    (pairs : List (PropertyPair κ α)) : (properties (updateProperty name update pairs)).map Property.name =
      (properties pairs).map Property.name := by
  rw [properties, slots_update]
  exact names_changeSlot hname name (slots pairs)

end Change

theorem clearSlot_sublist (name : Name κ) (list : List (Option (Property κ α))) :
    (changeSlot name (fun _ => none) list).reduceOption.Sublist list.reduceOption := by
  induction list with
  | nil => exact List.Sublist.slnil
  | cons slot rest ih =>
    rw [changeSlot]
    split
    · rw [reduce_cons, reduce_cons]
      exact List.sublist_append_right _ _
    · rw [reduce_cons, reduce_cons]
      exact ih.append_left _

/-- What is found after a deletion, when the names are different. -/
theorem lookup_clearSlot {list : List (Option (Property κ α))} (hnodup : (list.reduceOption.map Property.name).Nodup) :
    lookup other (changeSlot name (fun _ => none) list).reduceOption =
      if other = name then none else lookup other list.reduceOption := by
  induction list with
  | nil => exact (ite_self _).symm
  | cons slot rest ih =>
    cases slot with
    | none =>
      rw [List.reduceOption_cons_of_none] at hnodup ⊢
      rw [changeSlot_none, List.reduceOption_cons_of_none, ih hnodup]
    | some property =>
      rw [List.reduceOption_cons_of_some, List.map_cons, List.nodup_cons] at hnodup
      rw [changeSlot_some, List.reduceOption_cons_of_some, lookup_cons]
      by_cases h : property.name = name
      · rw [if_pos h, List.reduceOption_cons_of_none]
        by_cases hother : other = name
        · rw [if_pos hother, lookup_eq_none_iff, hother, ← h]
          exact hnodup.1
        · rw [if_neg hother, if_neg (fun heq => hother (heq.symm.trans h))]
      · rw [if_neg h, List.reduceOption_cons_of_some, lookup_cons, ih hnodup.2]
        by_cases hother : other = name
        · rw [if_pos hother, if_pos hother, if_neg (by rw [hother]; exact h)]
        · rw [if_neg hother, if_neg hother]

end Slot

end FastArray
end JJS
