import JJS.PropertyStore.Delete
import Mathlib.Order.Bounds.Basic

/-!
# JJS.PropertyStore.DeleteArray

`ecma_delete_array_properties`: the first walk finds where a deletion stops (`raise_isGreatest`), the second one deletes the
configurable indices from there on and nothing else (`deleteArrayLoop_spec`).
-/

namespace JJS
namespace PropertyStore

variable {κ α : Type} {strings : HeapStrings κ} {cpointer32Bit : Bool}

/-! ## The first walk -/

/-- The new length, and the numbers after the indices below the old length that cannot be deleted. -/
def stops (strings : HeapStrings κ) (props : List (Position × Property α)) (oldLength newLength : Nat) : Set Nat :=
  insert newLength {n | ∃ slot ∈ props, slot.2.configurable = false ∧
    ecmaStringGetPropertyIndex strings slot.2.name < oldLength ∧ n = ecmaStringGetPropertyIndex strings slot.2.name + 1}

/-- The new length after a property is the greatest number so far. -/
theorem raise_isGreatest (oldLength : Nat) : ∀ (props : List (Position × Property α)) (newLength : Nat),
    IsGreatest (stops strings props oldLength newLength)
      (props.foldl (fun length slot => raiseLength strings oldLength length slot.2) newLength) := by
  intro props
  induction props with
  | nil =>
    intro newLength
    refine ⟨Set.mem_insert _ _, ?_⟩
    intro n hn
    cases hn with
    | inl heq => exact Nat.le_of_eq heq
    | inr hin =>
      obtain ⟨slot, hslot, -⟩ := hin
      cases hslot
  | cons slot props ih =>
    intro newLength
    obtain ⟨hin, hupper⟩ := ih (raiseLength strings oldLength newLength slot.2)
    have hraise : raiseLength strings oldLength newLength slot.2 ∈ stops strings (slot :: props) oldLength newLength := by
      rw [raiseLength]
      split
      · rename_i hraised
        exact Or.inr ⟨slot, List.mem_cons_self, by simpa using hraised.1, hraised.2.1, rfl⟩
      · exact Set.mem_insert _ _
    rw [List.foldl_cons]
    constructor
    · cases hin with
      | inl heq =>
        rw [heq]
        exact hraise
      | inr hin =>
        obtain ⟨other, hother, hrest⟩ := hin
        exact Or.inr ⟨other, List.mem_cons_of_mem slot hother, hrest⟩
    · -- the length only grows, and is above the index of this property
      have hge : newLength ≤ raiseLength strings oldLength newLength slot.2 := by
        rw [raiseLength]
        split
        · rename_i hraised
          omega
        · exact Nat.le_refl newLength
      have hstart := hupper (Set.mem_insert _ _)
      intro n hn
      cases hn with
      | inl heq =>
        rw [heq]
        exact hge.trans hstart
      | inr hin =>
        obtain ⟨other, hother, hconfigurable, hold, heq⟩ := hin
        cases List.mem_cons.mp hother with
        | inl hhead =>
          rw [hhead] at hconfigurable hold heq
          have hindex : n ≤ raiseLength strings oldLength newLength slot.2 := by
            rw [raiseLength, heq]
            split
            · exact Nat.le_refl _
            · rename_i hnot
              rw [hconfigurable] at hnot
              simp only [Bool.not_false, true_and, not_and, not_le] at hnot
              exact hnot hold
          exact hindex.trans hstart
        | inr htail => exact hupper (Or.inr ⟨other, htail, hconfigurable, hold, heq⟩)

/-! ## The second walk -/

/-- A property with the pointer to it. -/
def slotList (position : Position) (slot : Option (Property α)) : List (Position × Property α) :=
  (slot.map fun property => (position, property)).toList

theorem slots_pair (pair : Pair α) :
    pair.slots = slotList ⟨pair.cp, false⟩ pair.first ++ slotList ⟨pair.cp, true⟩ pair.second := rfl

theorem slots_linkPair (pair : Pair α) (pairs : List (Pair α)) : slots (linkPair pair pairs) = pair.slots ++ slots pairs := by
  rw [linkPair]
  split
  · rename_i hnone
    obtain ⟨cp, first, second⟩ := pair
    rw [Bool.and_eq_true, Option.isNone_iff_eq_none, Option.isNone_iff_eq_none] at hnone
    dsimp only at hnone
    rw [hnone.1, hnone.2]
    rfl
  · exact slots_cons pair pairs

theorem cps_linkPair (pair : Pair α) {pairs pairs' : List (Pair α)}
    (h : (pairs'.map Pair.cp).Sublist (pairs.map Pair.cp)) :
    ((linkPair pair pairs').map Pair.cp).Sublist (pair.cp :: pairs.map Pair.cp) := by
  rw [linkPair]
  split
  · exact h.cons pair.cp
  · rw [List.map_cons]
    exact h.cons_cons pair.cp

section Operations

variable [DecidableEq κ] {store : Store α} {object : Nat}

/-- One property in the second walk. -/
theorem deleteArraySlot_spec (h : StoreOk strings cpointer32Bit store) (oldLength newLength : Nat) {deleting : Deleting}
    {position : Position} {slot : Option (Property α)} {rest : List (Position × Property α)}
    (hok : DeletingOk strings store object deleting (slotList position slot ++ rest))
    (hslots : slotList position slot ⊆ slots (store.objects object).pairs) :
    ∃ deleting' slot', deleteArraySlot strings cpointer32Bit object oldLength newLength deleting position slot =
        some (deleting', slot') ∧
      DeletingOk strings store object deleting' (slotList position slot' ++ rest) ∧
      slotList position slot' = (slotList position slot).filter fun slot => !deletes strings oldLength newLength slot.2 := by
  cases slot with
  | none => exact ⟨deleting, none, rfl, hok, rfl⟩
  | some property =>
    rw [deleteArraySlot]
    by_cases hdeletes : deletes strings oldLength newLength property = true
    · obtain ⟨deleting', hdelete, hok'⟩ := deleteSlot_spec h hok (hslots List.mem_cons_self)
      rw [if_pos hdeletes, hdelete]
      refine ⟨deleting', none, rfl, hok', ?_⟩
      simp [slotList, hdeletes]
    · rw [if_neg hdeletes]
      refine ⟨deleting, some property, rfl, hok, ?_⟩
      simp [slotList, hdeletes]

/-- The second walk leaves the properties that are not deleted, in order. -/
theorem deleteArrayLoop_spec (h : StoreOk strings cpointer32Bit store) (oldLength newLength : Nat) :
    ∀ (pairs : List (Pair α)) (deleting : Deleting) (done : List (Position × Property α)),
    DeletingOk strings store object deleting (slots pairs ++ done) → slots pairs ⊆ slots (store.objects object).pairs →
    ∃ deleting' pairs', deleteArrayLoop strings cpointer32Bit object oldLength newLength deleting pairs =
        some (deleting', pairs') ∧
      DeletingOk strings store object deleting' (slots pairs' ++ done) ∧
      slots pairs' = ((slots pairs).filter fun slot => !deletes strings oldLength newLength slot.2) ∧
      (pairs'.map Pair.cp).Sublist (pairs.map Pair.cp) := by
  intro pairs
  induction pairs with
  | nil =>
    intro deleting done hok _
    exact ⟨deleting, [], rfl, hok, rfl, List.Sublist.refl _⟩
  | cons pair pairs ih =>
    intro deleting done hok hslots
    rw [slots_cons, slots_pair] at hok hslots
    rw [List.append_assoc, List.append_assoc] at hok
    -- what stays is put behind the properties that are still to be looked at
    obtain ⟨deleting1, first, hdelete1, hok1, hfirst⟩ := deleteArraySlot_spec h oldLength newLength hok
      (fun slot hslot => hslots (List.mem_append_left _ (List.mem_append_left _ hslot)))
    obtain ⟨deleting2, second, hdelete2, hok2, hsecond⟩ := deleteArraySlot_spec h oldLength newLength
      (hok1.perm (List.perm_append_comm_assoc _ _ _))
      (fun slot hslot => hslots (List.mem_append_left _ (List.mem_append_right _ hslot)))
    have hperm : (slotList ⟨pair.cp, true⟩ second ++ (slotList ⟨pair.cp, false⟩ first ++ (slots pairs ++ done))).Perm
        (slots pairs ++ (slotList ⟨pair.cp, false⟩ first ++ slotList ⟨pair.cp, true⟩ second ++ done)) := by
      refine (List.perm_append_comm_assoc _ _ _).trans ?_
      rw [← List.append_assoc]
      exact List.perm_append_comm_assoc _ _ _
    obtain ⟨deleting3, pairs', hloop, hok3, hpairs, hcps⟩ := ih deleting2 _ (hok2.perm hperm)
      (fun slot hslot => hslots (List.mem_append_right _ hslot))
    rw [deleteArrayLoop, hdelete1]
    refine ⟨deleting3, linkPair ⟨pair.cp, first, second⟩ pairs', ?_, ?_, ?_, ?_⟩
    · dsimp only [Option.bind_eq_bind, Option.bind_some]
      rw [hdelete2]
      dsimp only [Option.bind_some]
      rw [hloop]
      rfl
    · rw [slots_linkPair, List.append_assoc]
      exact hok3.perm (List.perm_append_comm_assoc _ _ _)
    · rw [slots_linkPair, hpairs, slots_cons, List.filter_append, slots_pair, slots_pair, List.filter_append, hfirst, hsecond]
    · exact cps_linkPair _ hcps

/-- A cache without entries goes with objects that have no flag and no hashmap. -/
theorem storeOk_start {objects : Nat → Object α} (hchains : ∀ object, ChainOk strings (objects object).pairs)
    (hseparate : Separate objects) (hhashmaps : ∀ object, (objects object).hashmap = none)
    (hflags : ∀ object, ∀ slot ∈ slots (objects object).pairs, slot.2.lcached = false) :
    StoreOk strings cpointer32Bit ⟨objects, fun _ => ⟨none, none⟩⟩ := by
  refine ⟨hchains, hseparate, ?_, ?_, ?_, ?_⟩
  · intro object m hm
    have hnone : (objects object).hashmap = some m := hm
    rw [hhashmaps] at hnone
    cases hnone
  · intro r entry hin
    cases hin with
    | inl hfirst => cases hfirst
    | inr hsecond => cases hsecond
  · intro object position property hslot hlcached
    have hflag := hflags object (position, property) hslot
    dsimp only at hflag
    rw [hflag] at hlcached
    cases hlcached
  · intro r entry hfirst
    cases hfirst

/-! ## Truncation -/

/-- An array is cut to the new length, or to the last index above it that cannot be deleted. Only the configurable indices
from there to the old length are deleted, and a lookup finds what remains. -/
theorem delete_array_correct (h : StoreOk strings cpointer32Bit store) (alloc : Bool) (object : Nat)
    {newLength oldLength : Nat} (hlength : newLength < oldLength) :
    ∃ store' stop, ecmaDeleteArrayProperties strings cpointer32Bit alloc store object newLength oldLength =
        some (store', stop) ∧
      IsGreatest (stops strings (slots (store.objects object).pairs) oldLength newLength) stop ∧ stop ≤ oldLength ∧
      slots (store'.objects object).pairs = ((slots (store.objects object).pairs).filter fun slot =>
        !(slot.2.configurable && decide (stop ≤ ecmaStringGetPropertyIndex strings slot.2.name) &&
          decide (ecmaStringGetPropertyIndex strings slot.2.name < oldLength))) ∧
      (∀ other, other ≠ object → store'.objects other = store.objects other) ∧
      StoreOk strings cpointer32Bit store' ∧
      ∀ alloc other name, ∃ store'', ecmaFindNamedProperty strings cpointer32Bit alloc store' other name =
        some (store'', lookup strings (store'.objects other).pairs name) := by
  have hgreatest := @raise_isGreatest _ _ strings oldLength (slots (store.objects object).pairs) newLength
  have hfind : ∀ {store' : Store α}, StoreOk strings cpointer32Bit store' → ∀ alloc other name,
      ∃ store'', ecmaFindNamedProperty strings cpointer32Bit alloc store' other name =
        some (store'', lookup strings (store'.objects other).pairs name) := by
    intro store' hok alloc other name
    obtain ⟨store'', hfound, -, -⟩ := find_correct hok alloc other name
    exact ⟨store'', hfound⟩
  rw [ecmaDeleteArrayProperties]
  dsimp only
  generalize (slots (store.objects object).pairs).foldl (fun length slot => raiseLength strings oldLength length slot.2)
    newLength = stop at hgreatest ⊢
  have hstop : stop ≤ oldLength := by
    cases hgreatest.1 with
    | inl heq => omega
    | inr hin =>
      obtain ⟨slot, -, -, hold, heq⟩ := hin
      omega
  have hdeletes : ∀ slot : Position × Property α, deletes strings oldLength stop slot.2 =
      (slot.2.configurable && decide (stop ≤ ecmaStringGetPropertyIndex strings slot.2.name) &&
        decide (ecmaStringGetPropertyIndex strings slot.2.name < oldLength)) := by
    intro slot
    rw [Bool.eq_iff_iff, deletes]
    simp only [decide_eq_true_iff, Bool.and_eq_true]
    rw [and_assoc, and_comm (a := ecmaStringGetPropertyIndex strings slot.2.name < oldLength)]
  split
  · rename_i heq
    refine ⟨store, stop, rfl, hgreatest, hstop, ?_, fun _ _ => rfl, h, hfind h⟩
    rw [List.filter_eq_self.mpr]
    intro slot _
    rw [Bool.not_eq_true', ← hdeletes, deletes]
    refine decide_eq_false ?_
    intro hdeleted
    omega
  · obtain ⟨deleting, pairs, hloop, hok, hpairs, hcps⟩ := deleteArrayLoop_spec h oldLength stop
      (store.objects object).pairs (.start store object) [] (by rw [List.append_nil]; exact start_ok h object)
      (fun slot hslot => hslot)
    rw [List.append_nil] at hok
    have hsublist : (slots pairs).Sublist (slots (store.objects object).pairs) := by
      rw [hpairs]
      exact List.filter_sublist
    obtain ⟨store', hfinish, hself, hothers, hstore⟩ := finish_spec h alloc hcps hsublist hok
    refine ⟨store', stop, ?_, hgreatest, hstop, ?_, hothers, hstore, hfind hstore⟩
    · rw [hloop]
      dsimp only [Option.bind_eq_bind, Option.bind_some]
      rw [hfinish]
      rfl
    · rw [hself, hpairs]
      simp only [hdeletes]

end Operations

/-- Names that are all direct. -/
def directStrings : HeapStrings Unit := ⟨fun _ => .other (), fun _ => 0⟩

/-- An array of four items, where the second one cannot be deleted. -/
def arrayOfFour : Nat → Object Unit := fun object =>
  if object = 1 then
    ⟨none, [⟨3, some ⟨.direct .uint 3, (), true, false⟩, some ⟨.direct .uint 2, (), true, false⟩⟩,
      ⟨2, some ⟨.direct .uint 1, (), false, false⟩, some ⟨.direct .uint 0, (), true, false⟩⟩]⟩
  else ⟨none, []⟩

theorem arrayOfFour_storeOk : StoreOk directStrings false ⟨arrayOfFour, fun _ => ⟨none, none⟩⟩ := by
  refine storeOk_start ?_ ?_ ?_ ?_
  · intro object
    rw [arrayOfFour]
    split
    · refine ⟨by decide, by decide, ?_⟩
      simp [slots, Pair.slots, directStrings, sameName]
    · refine ⟨List.not_mem_nil, List.nodup_nil, List.Pairwise.nil⟩
  · intro object object' cp hin hin'
    rw [arrayOfFour] at hin hin'
    split at hin
    · rename_i hobject
      split at hin'
      · rename_i hobject'
        rw [hobject, hobject']
      · cases hin'
    · cases hin
  · intro object
    rw [arrayOfFour]
    split
    · rfl
    · rfl
  · intro object slot hslot
    rw [arrayOfFour] at hslot
    split at hslot
    · simp only [slots, Pair.slots, List.flatMap_cons, List.flatMap_nil, Option.map_some, Option.toList_some] at hslot
      simp at hslot
      rcases hslot with rfl | rfl | rfl | rfl
      · rfl
      · rfl
      · rfl
      · rfl
    · cases hslot

/-- The array is cut after its second item. -/
theorem delete_array_correct_four :
    ∃ store' stop, ecmaDeleteArrayProperties directStrings false true ⟨arrayOfFour, fun _ => ⟨none, none⟩⟩ 1 0 4 =
        some (store', stop) ∧
      IsGreatest (stops directStrings (slots (arrayOfFour 1).pairs) 4 0) stop ∧ stop ≤ 4 ∧
      slots (store'.objects 1).pairs = ((slots (arrayOfFour 1).pairs).filter fun slot =>
        !(slot.2.configurable && decide (stop ≤ ecmaStringGetPropertyIndex directStrings slot.2.name) &&
          decide (ecmaStringGetPropertyIndex directStrings slot.2.name < 4))) ∧
      (∀ other, other ≠ 1 → store'.objects other = arrayOfFour other) ∧
      StoreOk directStrings false store' ∧
      ∀ alloc other name, ∃ store'', ecmaFindNamedProperty directStrings false alloc store' other name =
        some (store'', lookup directStrings (store'.objects other).pairs name) :=
  delete_array_correct arrayOfFour_storeOk true 1 (by decide)

end PropertyStore
end JJS
