import JJS.Arguments.Basic

/-!
# JJS.Arguments.Fits

What the history of an arguments object says about its slots and its property list. `Owned` and `Call.Maps` are the
parameter map of ECMAScript, as functions of the history; `Fits` is the invariant that relates one key of an object to
them. Each operation changes one key only (`SameBut`), so a step has to establish the invariant at that key.
-/

namespace JJS
namespace Arguments

section History

variable {V Name : Type}

/-- A definition that was accepted or a deletion. A history has the latest event first. -/
inductive Event (V Name : Type) where
  | defined (key : Key Name) (desc : Descriptor V)
  | deleted (key : Key Name)

/-- The key of an event. -/
def Event.key : Event V Name → Key Name
  | .defined key _ => key
  | .deleted key => key

/-- An index is below the number of actual arguments and was not deleted, or was defined since. -/
def Owned (argumentsNumber i : Nat) : List (Event V Name) → Prop
  | [] => i < argumentsNumber
  | .defined key _ :: past => key = .index i ∨ Owned argumentsNumber i past
  | .deleted key :: past => key ≠ .index i ∧ Owned argumentsNumber i past

/-- An index was deleted, made an accessor or made read-only. -/
def Severed (i : Nat) : List (Event V Name) → Prop
  | [] => False
  | .defined key desc :: past => key = .index i ∧ (desc.isAccessor || desc.isReadOnly) = true ∨ Severed i past
  | .deleted key :: past => key = .index i ∨ Severed i past

/-- A position is the last one of a name. -/
def LastOf (names : List Name) (i : Nat) (name : Name) : Prop :=
  names[i]? = some name ∧ ∀ j, i < j → names[j]? ≠ some name

/-- A value that is defined at an index changes the binding of a formal parameter. -/
structure Call.Maps (call : Call V Name) (past : List (Event V Name)) (i : Nat) (name : Name) : Prop where
  mapped : call.mappedArgumentsNeeded = true
  actual : i < call.argList.length
  last : LastOf call.formals i name
  kept : ¬ Severed i past

theorem owned_cons_of_ne {event : Event V Name} {argumentsNumber i : Nat} {past : List (Event V Name)}
    (hkey : event.key ≠ .index i) : Owned argumentsNumber i (event :: past) ↔ Owned argumentsNumber i past := by
  cases event with
  | defined key desc => exact ⟨fun h => h.resolve_left hkey, Or.inr⟩
  | deleted key => exact ⟨fun h => h.2, fun h => ⟨hkey, h⟩⟩

theorem severed_cons_of_ne {event : Event V Name} {i : Nat} {past : List (Event V Name)} (hkey : event.key ≠ .index i) :
    Severed i (event :: past) ↔ Severed i past := by
  cases event with
  | defined key desc => exact ⟨fun h => h.resolve_left fun h => hkey h.1, Or.inr⟩
  | deleted key => exact ⟨fun h => h.resolve_left hkey, Or.inr⟩

end History

/-! ## The names of the parameters -/

section Names

variable {Name : Type} [DecidableEq Name]

theorem length_formalParameterStart (names : List Name) : (formalParameterStart names).length = names.length := by
  induction names with
  | nil => rfl
  | cons name names ih => rw [formalParameterStart, List.length_cons, List.length_cons, ih]

/-- The byte code has the name of a parameter at the last position of that name. -/
theorem formalParameterStart_eq_some {names : List Name} {i : Nat} {name : Name} :
    (formalParameterStart names)[i]? = some (some name) ↔ LastOf names i name := by
  induction names generalizing i with
  | nil => exact ⟨(nomatch ·), (nomatch ·.1)⟩
  | cons first names ih =>
    cases i with
    | zero =>
      rw [formalParameterStart, List.getElem?_cons_zero]
      constructor
      · intro h
        split at h
        case isTrue => cases h
        case isFalse hnot =>
          obtain rfl := Option.some.inj (Option.some.inj h)
          refine ⟨rfl, fun j hj hname => hnot ?_⟩
          obtain ⟨j, rfl⟩ := Nat.exists_eq_succ_of_ne_zero (Nat.ne_of_gt hj)
          exact List.mem_of_getElem? hname
      · rintro ⟨hfirst, hlast⟩
        obtain rfl := Option.some.inj hfirst
        rw [if_neg fun hmem => ?_]
        obtain ⟨j, hj⟩ := List.mem_iff_getElem?.mp hmem
        exact hlast (j + 1) (Nat.succ_pos j) hj
    | succ i =>
      rw [formalParameterStart, List.getElem?_cons_succ, ih]
      constructor
      · rintro ⟨hname, hlast⟩
        refine ⟨hname, fun j hj => ?_⟩
        obtain ⟨j, rfl⟩ := Nat.exists_eq_succ_of_ne_zero (Nat.ne_of_gt (Nat.lt_of_le_of_lt (Nat.zero_le _) hj))
        exact hlast j (Nat.lt_of_succ_lt_succ hj)
      · rintro ⟨hname, hlast⟩
        exact ⟨hname, fun j hj => hlast (j + 1) (Nat.succ_lt_succ hj)⟩

/-- The other positions have no name. -/
theorem formalParameterStart_eq_none {names : List Name} {i : Nat} :
    (formalParameterStart names)[i]? = some none ↔ i < names.length ∧ ∀ name, ¬ LastOf names i name := by
  constructor
  · intro h
    have hlt := (List.getElem?_eq_some_iff.mp h).1
    rw [length_formalParameterStart] at hlt
    refine ⟨hlt, fun name hlast => ?_⟩
    rw [formalParameterStart_eq_some.mpr hlast] at h
    cases h
  · rintro ⟨hlt, hnot⟩
    rw [← length_formalParameterStart] at hlt
    rw [List.getElem?_eq_getElem hlt]
    cases hentry : (formalParameterStart names)[i] with
    | none => rfl
    | some name => exact absurd (formalParameterStart_eq_some.mp (by rw [List.getElem?_eq_getElem hlt, hentry])) (hnot name)

end Names

/-! ## The invariant -/

section Invariant

variable {V Name : Type} {engine : Engine V} {call : Call V Name} {past : List (Event V Name)}

/-- The slot and the property of an index, given the history. -/
structure IndexFits (engine : Engine V) (call : Call V Name) (past : List (Event V Name)) (i : Nat) (slot : Option (Slot V))
    (property : Option (Property V)) : Prop where
  present : i < call.argList.length → slot ≠ none
  owned : property.isSome = true ∨ i < call.argList.length ∧ slot ≠ some .empty ↔ Owned call.argList.length i past
  shadowed : call.mappedArgumentsNeeded = true → i < call.formals.length → (∀ name, ¬ LastOf call.formals i name) →
    slot = some .empty
  kept : call.mappedArgumentsNeeded = true → i < call.argList.length → ∀ name, LastOf call.formals i name →
    ((∃ value, slot = some (.value value)) ↔ ¬ Severed i past)
  isData : call.mappedArgumentsNeeded = true → i < call.formals.length → (∃ value, slot = some (.value value)) →
    ∀ p, property = some p → ∃ value writable, p.content = .data value writable
  noTrack : slot = some .noTrack → i < call.argList.length → property.isSome = true
  builtIn : ∀ p, property = some p → p.builtIn = true →
    i < call.argList.length ∧ (slot = some (.value engine.undefined) ∨ slot = some .noTrack)
  plain : ∀ p, property = some p → p.builtIn = false → i < call.argList.length → slot = some .empty

/-- The invariant at one key. A property that is deleted from the list is only built-in if it was not deleted before. -/
def Fits (engine : Engine V) (call : Call V Name) (past : List (Event V Name)) (object : ArgumentsObject V Name) :
    Key Name → Prop
  | .index i => IndexFits engine call past i object.argv[i]? (object.properties (.index i))
  | .length => ∀ p, object.properties .length = some p → p.builtIn = true → object.lengthInitialized = false
  | .callee => ∀ p, object.properties .callee = some p → p.builtIn = true →
      object.calleeInitialized = false ∧ (object.mapped = true ∨ p.configurable = false)
  | .iterator => ∀ p, object.properties .iterator = some p → p.builtIn = true → object.iteratorInitialized = false
  | .other name => ∀ p, object.properties (.other name) = some p → p.builtIn = false

/-- The invariant. -/
structure Inv [DecidableEq Name] (engine : Engine V) (call : Call V Name) (past : List (Event V Name)) (object : ArgumentsObject V Name) :
    Prop where
  mapped : object.mapped = call.mappedArgumentsNeeded
  formalParameters : object.formalParameters = formalParameterStart call.formals
  argumentsNumber : object.argumentsNumber = call.argList.length
  fits : ∀ key, Fits engine call past object key

/-- Two objects that are the same, but for one key, the bindings and whether they are extensible. -/
structure SameBut (key : Key Name) (object object' : ArgumentsObject V Name) : Prop where
  mapped : object'.mapped = object.mapped
  formalParameters : object'.formalParameters = object.formalParameters
  argumentsNumber : object'.argumentsNumber = object.argumentsNumber
  calleeValue : object'.calleeValue = object.calleeValue
  properties : ∀ other, other ≠ key → object'.properties other = object.properties other
  argv : ∀ i, .index i ≠ key → object'.argv[i]? = object.argv[i]?
  lengthInitialized : .length ≠ key → object'.lengthInitialized = object.lengthInitialized
  calleeInitialized : .callee ≠ key → object'.calleeInitialized = object.calleeInitialized
  iteratorInitialized : .iterator ≠ key → object'.iteratorInitialized = object.iteratorInitialized

variable {object object' object'' : ArgumentsObject V Name} {key : Key Name}

namespace SameBut

theorem refl (key : Key Name) (object : ArgumentsObject V Name) : SameBut key object object :=
  ⟨rfl, rfl, rfl, rfl, fun _ _ => rfl, fun _ _ => rfl, fun _ => rfl, fun _ => rfl, fun _ => rfl⟩

theorem trans (h : SameBut key object object') (h' : SameBut key object' object'') : SameBut key object object'' where
  mapped := h'.mapped.trans h.mapped
  formalParameters := h'.formalParameters.trans h.formalParameters
  argumentsNumber := h'.argumentsNumber.trans h.argumentsNumber
  calleeValue := h'.calleeValue.trans h.calleeValue
  properties other hne := (h'.properties other hne).trans (h.properties other hne)
  argv i hne := (h'.argv i hne).trans (h.argv i hne)
  lengthInitialized hne := (h'.lengthInitialized hne).trans (h.lengthInitialized hne)
  calleeInitialized hne := (h'.calleeInitialized hne).trans (h.calleeInitialized hne)
  iteratorInitialized hne := (h'.iteratorInitialized hne).trans (h.iteratorInitialized hne)

theorem setProperty [DecidableEq Name] (key : Key Name) (object : ArgumentsObject V Name) (property : Option (Property V)) :
    SameBut key object (object.setProperty key property) :=
  { refl key object with properties := fun _ hne => Function.update_of_ne hne _ _ }

theorem setSlot (i : Nat) (object : ArgumentsObject V Name) (slot : Slot V) :
    SameBut (.index i) object (object.setSlot i slot) :=
  { refl (.index i) object with
    argv := fun _ hne => List.getElem?_set_ne fun hij => hne (congrArg Key.index hij.symm) }

/-- Another key fits as before, also after an event at the key. -/
theorem fits (h : SameBut key object object') {other : Key Name} (hne : other ≠ key) {past' : List (Event V Name)}
    (hpast : past' = past ∨ ∃ event, event.key = key ∧ past' = event :: past) (hfits : Fits engine call past object other) :
    Fits engine call past' object' other := by
  cases other with
  | index i =>
    rw [Fits, h.argv i hne, h.properties _ hne]
    obtain rfl | ⟨event, hevent, rfl⟩ := hpast
    · exact hfits
    · have hkey : event.key ≠ .index i := fun heq => hne (heq.symm.trans hevent)
      have howned := @owned_cons_of_ne _ _ event call.argList.length i past hkey
      have hsevered := @severed_cons_of_ne _ _ event i past hkey
      exact { hfits with
        owned := hfits.owned.trans howned.symm
        kept := fun hmapped hactual name hlast => (hfits.kept hmapped hactual name hlast).trans (not_congr hsevered.symm) }
  | length =>
    rw [Fits, h.properties _ hne, h.lengthInitialized hne]
    exact hfits
  | callee =>
    rw [Fits, h.properties _ hne, h.calleeInitialized hne, h.mapped]
    exact hfits
  | iterator =>
    rw [Fits, h.properties _ hne, h.iteratorInitialized hne]
    exact hfits
  | other name =>
    rw [Fits, h.properties _ hne]
    exact hfits

end SameBut

variable [DecidableEq Name]

/-- The invariant holds after a step that changes one key, if that key fits. -/
theorem Inv.step (hinv : Inv engine call past object) (hsame : SameBut key object object')
    {past' : List (Event V Name)} (hpast : past' = past ∨ ∃ event, event.key = key ∧ past' = event :: past)
    (hfits : Fits engine call past' object' key) : Inv engine call past' object' where
  mapped := hsame.mapped.trans hinv.mapped
  formalParameters := hsame.formalParameters.trans hinv.formalParameters
  argumentsNumber := hsame.argumentsNumber.trans hinv.argumentsNumber
  fits other := by
    by_cases hne : other = key
    · rw [hne]
      exact hfits
    · exact hsame.fits hne hpast (hinv.fits other)

omit [DecidableEq Name] in
theorem isTracked_iff {i : Nat} : object.isTracked i = true ↔
    object.mapped = true ∧ i < object.formalParameters.length ∧ ∃ value, object.argv[i]? = some (.value value) := by
  rw [ArgumentsObject.isTracked, Bool.and_eq_true, Bool.and_eq_true, decide_eq_true_eq, and_assoc]
  refine and_congr_right fun _ => and_congr_right fun _ => ?_
  split
  case h_1 value hslot => exact ⟨fun _ => ⟨value, hslot⟩, fun _ => rfl⟩
  case h_2 hnot => exact ⟨(nomatch ·), fun ⟨value, hslot⟩ => absurd hslot (hnot value)⟩

/-- A tracked index is the last position of a name. -/
theorem Inv.tracked_name (hinv : Inv engine call past object) {i : Nat} (htracked : object.isTracked i = true) :
    ∃ name, object.getFormalParameter i = some name ∧ LastOf call.formals i name := by
  obtain ⟨hmapped, hformal, value, hslot⟩ := isTracked_iff.mp htracked
  have hshadowed : ¬ ∀ name, ¬ LastOf call.formals i name := fun hnot => by
    have hlt : i < call.formals.length := by
      rwa [hinv.formalParameters, length_formalParameterStart] at hformal
    have hempty := (hinv.fits (.index i)).shadowed (hinv.mapped.symm.trans hmapped) hlt hnot
    rw [hslot] at hempty
    cases hempty
  obtain ⟨name, hlast⟩ := not_forall_not.mp hshadowed
  refine ⟨name, ?_, hlast⟩
  rw [ArgumentsObject.getFormalParameter, hinv.formalParameters, formalParameterStart_eq_some.mpr hlast]
  rfl

/-- An index with an actual argument is tracked while a value that is defined there changes a binding. -/
theorem Inv.tracked_iff (hinv : Inv engine call past object) {i : Nat} (hactual : i < call.argList.length) {name : Name}
    (hlast : LastOf call.formals i name) : object.isTracked i = true ↔ call.Maps past i name := by
  have hlt : i < object.formalParameters.length := by
    rw [hinv.formalParameters, length_formalParameterStart]
    exact (List.getElem?_eq_some_iff.mp hlast.1).1
  rw [isTracked_iff, hinv.mapped]
  constructor
  · rintro ⟨hmapped, -, hslot⟩
    exact ⟨hmapped, hactual, hlast, ((hinv.fits (.index i)).kept hmapped hactual name hlast).mp hslot⟩
  · rintro ⟨hmapped, -, -, hkept⟩
    exact ⟨hmapped, hlt, ((hinv.fits (.index i)).kept hmapped hactual name hlast).mpr hkept⟩

end Invariant

end Arguments
end JJS
