import JJS.Arguments.Define

/-!
# JJS.Arguments.ParameterMap

Runs of an arguments object. While every step meets the condition, the object follows the parameter map (`parameterMap`).
The condition is about three places of the source. Creation makes a property for each position whose parameter name is
repeated later, also where there is no actual argument (`create_owned`). The definition of a tracked index writes the
binding without asking for an actual argument, and also after it was rejected without an error (`define_tracked`).
-/

namespace JJS
namespace Arguments

variable {V Name : Type} [DecidableEq Name] {engine : Engine V} {call : Call V Name} {object object' : ArgumentsObject V Name}

/-! ## Creation -/

/-- What the loop over the formal parameters does, from a position on. -/
structure Materialised (names : List (Option Name)) (i : Nat) (object object' : ArgumentsObject V Name) : Prop where
  mapped : object'.mapped = object.mapped
  formalParameters : object'.formalParameters = object.formalParameters
  argumentsNumber : object'.argumentsNumber = object.argumentsNumber
  named : ∀ key, (∀ j, key ≠ .index j) → object'.properties key = object.properties key
  shadowed : ∀ j, names[j]? = some none → object'.argv[i + j]? = some .empty ∧
    ∃ value, object'.properties (.index (i + j)) = some (.ofValue value true false)
  others : ∀ k, (∀ j, k = i + j → names[j]? ≠ some none) →
    object'.argv[k]? = object.argv[k]? ∧ object'.properties (.index k) = object.properties (.index k)

theorem materialise_spec (names : List (Option Name)) (i : Nat) (object : ArgumentsObject V Name)
    (hslots : ∀ j, j < names.length → ∃ value, object.argv[i + j]? = some (.value value)) :
    Materialised names i object (materialise object names i) := by
  induction names generalizing i object with
  | nil => exact ⟨rfl, rfl, rfl, fun _ _ => rfl, fun _ h => (nomatch h), fun _ _ => ⟨rfl, rfl⟩⟩
  | cons name names ih =>
    cases name with
    | some name =>
      have hrest := ih (i + 1) object fun j hj => by
        rw [Nat.add_assoc, Nat.add_comm 1]
        exact hslots (j + 1) (Nat.succ_lt_succ hj)
      rw [materialise]
      refine { hrest with shadowed := fun j hj => ?_, others := fun k hk => ?_ }
      · cases j with
        | zero => cases hj
        | succ j =>
          have := hrest.shadowed j hj
          rwa [Nat.add_assoc, Nat.add_comm 1] at this
      · refine hrest.others k fun j hj => hk (j + 1) ?_
        rw [hj, Nat.add_assoc, Nat.add_comm 1]
    | none =>
      obtain ⟨value, hvalue⟩ := hslots 0 (Nat.succ_pos _)
      rw [Nat.add_zero] at hvalue
      have hlt : i < object.argv.length := (List.getElem?_eq_some_iff.mp hvalue).1
      have hstep : materialise object (none :: names) i = materialise
          ((object.setProperty (.index i) (some (.ofValue value true false))).setSlot i .empty) names (i + 1) := by
        rw [materialise, hvalue]
      have hrest := ih (i + 1) ((object.setProperty (.index i) (some (.ofValue value true false))).setSlot i .empty)
        fun j hj => by
          obtain ⟨other, hother⟩ := hslots (j + 1) (Nat.succ_lt_succ hj)
          refine ⟨other, ?_⟩
          rw [Nat.add_assoc, Nat.add_comm 1, ← hother]
          exact List.getElem?_set_ne (by omega)
      rw [hstep]
      refine ⟨hrest.mapped, hrest.formalParameters, hrest.argumentsNumber, fun key hkey => ?_, fun j hj => ?_, fun k hk => ?_⟩
      · exact (hrest.named key hkey).trans (Function.update_of_ne (hkey i) _ _)
      · cases j with
        | zero =>
          obtain ⟨hargv, hproperties⟩ := hrest.others i fun j hj => by omega
          exact ⟨hargv.trans (List.getElem?_set_self hlt), value, hproperties.trans (object.setProperty_self _ _)⟩
        | succ j =>
          have := hrest.shadowed j hj
          rwa [Nat.add_assoc, Nat.add_comm 1] at this
      · have hne : k ≠ i := fun h => hk 0 h rfl
        obtain ⟨hargv, hproperties⟩ := hrest.others k fun j hj => by
          refine hk (j + 1) ?_
          rw [hj, Nat.add_assoc, Nat.add_comm 1]
        refine ⟨hargv.trans (List.getElem?_set_ne hne.symm), hproperties.trans ?_⟩
        exact Function.update_of_ne (fun h => hne (Key.index.inj h)) _ _

/-- The slots when the object is created. -/
def initialArgv (engine : Engine V) (call : Call V Name) : List (Slot V) :=
  call.argList.map .value ++
    List.replicate ((formalParameterStart call.formals).length - call.argList.length) (.value engine.undefined)

theorem initialArgv_value {i : Nat} {slot : Slot V} (hslot : (initialArgv engine call)[i]? = some slot) :
    ∃ value, slot = .value value := by
  have hmem := List.mem_of_getElem? hslot
  rw [initialArgv, List.mem_append, List.mem_map, List.mem_replicate] at hmem
  obtain ⟨value, -, rfl⟩ | ⟨-, rfl⟩ := hmem
  · exact ⟨value, rfl⟩
  · exact ⟨engine.undefined, rfl⟩

theorem initialArgv_present (engine : Engine V) {i : Nat} (hi : i < call.argList.length ∨ i < call.formals.length) :
    ∃ value, (initialArgv engine call)[i]? = some (.value value) := by
  have hlt : i < (initialArgv engine call).length := by
    rw [initialArgv, List.length_append, List.length_map, List.length_replicate, length_formalParameterStart]
    omega
  obtain ⟨value, hvalue⟩ := initialArgv_value (List.getElem?_eq_getElem hlt)
  exact ⟨value, (List.getElem?_eq_getElem hlt).trans (congrArg some hvalue)⟩

/-- A position whose property is made when the object is created. -/
def Call.Shadowed (call : Call V Name) (i : Nat) : Prop :=
  call.mappedArgumentsNeeded = true ∧ i < call.formals.length ∧ ∀ name, ¬ LastOf call.formals i name

/-- What the creation of an arguments object does. -/
structure Creates (engine : Engine V) (call : Call V Name) (object : ArgumentsObject V Name) : Prop where
  mapped : object.mapped = call.mappedArgumentsNeeded
  formalParameters : object.formalParameters = formalParameterStart call.formals
  argumentsNumber : object.argumentsNumber = call.argList.length
  named : ∀ key, (∀ j, key ≠ .index j) → object.properties key = none
  shadowed : ∀ i, call.Shadowed i → object.argv[i]? = some .empty ∧
    ∃ value, object.properties (.index i) = some (.ofValue value true false)
  others : ∀ i, ¬ call.Shadowed i →
    object.argv[i]? = (initialArgv engine call)[i]? ∧ object.properties (.index i) = none

theorem create_spec (engine : Engine V) (call : Call V Name) : Creates engine call (createArgumentsObject engine call) := by
  cases hmapped : call.mappedArgumentsNeeded with
  | false =>
    have hnot : ∀ i, ¬ call.Shadowed i := fun i h => by
      cases hmapped.symm.trans h.1
    rw [createArgumentsObject, hmapped]
    exact ⟨hmapped.symm, rfl, rfl, fun _ _ => rfl, fun i h => absurd h (hnot i), fun _ _ => ⟨rfl, rfl⟩⟩
  | true =>
    have hspec := materialise_spec (formalParameterStart call.formals) 0
      { mapped := true
        formalParameters := formalParameterStart call.formals
        argumentsNumber := call.argList.length
        calleeValue := call.function
        argv := initialArgv engine call
        lengthInitialized := false
        calleeInitialized := false
        iteratorInitialized := false
        properties := fun _ => none
        extensible := true
        lexEnv := call.lexEnv } fun j hj => by
          rw [Nat.zero_add]
          rw [length_formalParameterStart] at hj
          exact initialArgv_present engine (Or.inr hj)
    have hshadowed : ∀ i, call.Shadowed i ↔ (formalParameterStart call.formals)[i]? = some none := fun i => by
      rw [formalParameterStart_eq_none, Call.Shadowed, hmapped]
      exact ⟨And.right, fun h => ⟨rfl, h⟩⟩
    rw [createArgumentsObject, hmapped]
    refine ⟨hspec.mapped.trans hmapped.symm, hspec.formalParameters, hspec.argumentsNumber, hspec.named, fun i hi => ?_,
      fun i hi => ?_⟩
    · have := hspec.shadowed i ((hshadowed i).mp hi)
      rwa [Nat.zero_add] at this
    · refine hspec.others i fun j hj => ?_
      rw [Nat.zero_add] at hj
      rw [← hj]
      exact fun h => hi ((hshadowed i).mpr h)

/-- An index of a new object is an own property if there is an actual argument or its parameter name is repeated. -/
theorem create_owned (engine : Engine V) (call : Call V Name) (i : Nat) :
    hasOwnProperty engine (createArgumentsObject engine call) (.index i) = true ↔
      i < call.argList.length ∨ call.Shadowed i := by
  have hcreates := create_spec engine call
  set object := createArgumentsObject engine call with hobject
  by_cases hshadowed : call.Shadowed i
  · refine iff_of_true ?_ (Or.inr hshadowed)
    obtain ⟨hslot, value, hproperty⟩ := hcreates.shadowed i hshadowed
    have hnot : object.isTracked i = false := by
      rw [← Bool.not_eq_true, isTracked_iff]
      rintro ⟨-, -, value, hvalue⟩
      rw [hslot] at hvalue
      cases hvalue
    rw [hasOwnProperty, getOwnProperty_of_untracked hproperty hnot]
  · obtain ⟨hslot, hnone⟩ := hcreates.others i hshadowed
    rw [or_iff_left hshadowed, hasOwnProperty, getOwnProperty_of_none hnone, tryToLazyInstantiateProperty,
      hcreates.argumentsNumber, hslot]
    by_cases hactual : i < call.argList.length
    · obtain ⟨value, hvalue⟩ := initialArgv_present engine (Or.inl hactual)
      rw [if_neg (Nat.not_le.mpr hactual), hvalue]
      exact iff_of_true rfl hactual
    · rw [if_pos (Nat.le_of_not_lt hactual)]
      exact iff_of_false Bool.false_ne_true hactual

/-- A call whose repeated names have actual arguments, except at their last positions. -/
def Call.Allowed (call : Call V Name) : Prop :=
  ∀ i, call.Shadowed i → i < call.argList.length

theorem create_inv (hallowed : call.Allowed) : Inv engine call [] (createArgumentsObject engine call) := by
  have hcreates := create_spec engine call
  refine ⟨hcreates.mapped, hcreates.formalParameters, hcreates.argumentsNumber, fun key => ?_⟩
  cases key with
  | index i =>
    by_cases hshadowed : call.Shadowed i
    · obtain ⟨hslot, value, hproperty⟩ := hcreates.shadowed i hshadowed
      rw [Fits, hslot, hproperty]
      constructor
      case present => exact fun _ => Option.some_ne_none _
      case owned => exact iff_of_true (Or.inl rfl) (hallowed i hshadowed)
      case shadowed => exact fun _ _ _ => rfl
      case kept => exact fun _ _ name hlast => absurd hlast (hshadowed.2.2 name)
      case isData =>
        intro _ _ h
        cases h.choose_spec
      case noTrack =>
        intro h
        cases h
      case builtIn =>
        intro p hp hbuiltIn
        obtain rfl := Option.some.inj hp
        cases hbuiltIn
      case plain => exact fun _ _ _ _ => rfl
    · obtain ⟨hslot, hnone⟩ := hcreates.others i hshadowed
      rw [Fits, hslot, hnone]
      constructor
      case present =>
        intro hactual
        obtain ⟨value, hvalue⟩ := initialArgv_present engine (Or.inl hactual)
        rw [hvalue]
        exact Option.some_ne_none _
      case owned =>
        constructor
        · rintro (h | h)
          · cases h
          · exact h.1
        · intro hactual
          obtain ⟨value, hvalue⟩ := initialArgv_present engine (Or.inl hactual)
          refine Or.inr ⟨hactual, fun hempty => ?_⟩
          rw [hvalue] at hempty
          cases hempty
      case shadowed => exact fun hmapped hformal hnot => absurd ⟨hmapped, hformal, hnot⟩ hshadowed
      case kept => exact fun _ hactual _ _ => iff_of_true (initialArgv_present engine (Or.inl hactual)) id
      case isData =>
        intro _ _ _ _ h
        cases h
      case noTrack =>
        intro h _
        obtain ⟨value, hvalue⟩ := initialArgv_value h
        cases hvalue
      case builtIn =>
        intro _ h
        cases h
      case plain =>
        intro _ h
        cases h
  | length | callee | iterator | other name =>
    intro p hp
    rw [hcreates.named _ (fun _ heq => by cases heq)] at hp
    cases hp

/-! ## Runs -/

/-- The history after an operation. -/
def Operation.record (result : Completion) (past : List (Event V Name)) : Operation V Name → List (Event V Name)
  | .define key desc => if result = .isTrue then .defined key desc :: past else past
  | .delete key _ => if result = .isTrue then .deleted key :: past else past
  | _ => past

variable {past : List (Event V Name)}

/-- What a look-up finds of an index. -/
theorem Inv.owned (hinv : Inv engine call past object) (i : Nat) :
    hasOwnProperty engine object (.index i) = true ↔ Owned call.argList.length i past := by
  obtain ⟨object', found, hlooks⟩ := lookUp hinv (.index i)
  have hfits := hlooks.fits
  rw [Fits, hlooks.properties] at hfits
  rw [hasOwnProperty, hlooks.runs]
  cases hfound : found with
  | none => exact iff_of_false Bool.false_ne_true (hlooks.missing i rfl hfound)
  | some p => exact iff_of_true rfl (hfits.owned.mp (Or.inl (by rw [hfound]; rfl)))

variable [DecidableEq V]

/-- The objects that a call can make, with what happened to them, as long as every step is allowed. -/
inductive Reached (engine : Engine V) (call : Call V Name) : ArgumentsObject V Name → List (Event V Name) → Prop where
  | create (hallowed : call.Allowed) : Reached engine call (createArgumentsObject engine call) []
  | step {object object' : ArgumentsObject V Name} {past : List (Event V Name)} {operation : Operation V Name}
      {result : Completion} (hreached : Reached engine call object past) (hallowed : operation.Allowed engine object)
      (hruns : operation.run engine object = some (result, object')) :
      Reached engine call object' (operation.record result past)

/-- An allowed operation does not run into a failed assertion, and keeps the invariant. -/
theorem Inv.run (hinv : Inv engine call past object) (operation : Operation V Name)
    (hallowed : operation.Allowed engine object) :
    ∃ result object', operation.run engine object = some (result, object') ∧
      Inv engine call (operation.record result past) object' := by
  cases operation with
  | define key desc =>
    obtain ⟨result, object', hdefines⟩ := define hinv key desc hallowed
    exact ⟨result, object', hdefines.runs, hdefines.inv⟩
  | lookUp key =>
    obtain ⟨object', found, hlooks⟩ := lookUp hinv key
    refine ⟨.isTrue, object', ?_, hinv.step hlooks.same (Or.inl rfl) hlooks.fits⟩
    rw [Operation.run, hlooks.runs]
    rfl
  | delete key isThrow =>
    obtain ⟨result, object', hdeletes⟩ := delete hinv key isThrow
    exact ⟨result, object', hdeletes.runs, hdeletes.inv⟩
  | preventExtensions =>
    refine ⟨.isTrue, { object with extensible := false }, rfl, ?_⟩
    exact ⟨hinv.mapped, hinv.formalParameters, hinv.argumentsNumber, hinv.fits⟩
  | assign name value =>
    refine ⟨.isTrue, object.setMutableBinding name value, rfl, ?_⟩
    exact ⟨hinv.mapped, hinv.formalParameters, hinv.argumentsNumber, hinv.fits⟩

theorem Reached.inv (hreached : Reached engine call object past) : Inv engine call past object := by
  induction hreached with
  | create hallowed => exact create_inv hallowed
  | step _ hallowed hruns ih =>
    obtain ⟨result, object', hruns', hinv⟩ := ih.run _ hallowed
    obtain ⟨rfl, rfl⟩ := Prod.mk.inj (Option.some.inj (hruns.symm.trans hruns'))
    exact hinv

/-- The parameter map of an arguments object with a history. -/
structure Follows (engine : Engine V) (call : Call V Name) (past : List (Event V Name)) (object : ArgumentsObject V Name) :
    Prop where
  owned : ∀ i, hasOwnProperty engine object (.index i) = true ↔ Owned call.argList.length i past
  runs : ∀ operation : Operation V Name, operation.Allowed engine object →
    ∃ result object', operation.run engine object = some (result, object')
  binds : ∀ key desc object', (Operation.define key desc).Allowed engine object →
    defineOwnProperty engine object key desc = some (.isTrue, object') →
    Binds call past key desc object.lexEnv object'.lexEnv
  unchanged : ∀ key desc result object', (Operation.define key desc).Allowed engine object →
    defineOwnProperty engine object key desc = some (result, object') → result ≠ .isTrue → Unchanged engine object object'

/-- The arguments object follows the parameter map after every run whose steps meet the condition. -/
theorem parameterMap (hreached : Reached engine call object past) : Follows engine call past object where
  owned := hreached.inv.owned
  runs operation hallowed := by
    obtain ⟨result, object', hruns, -⟩ := hreached.inv.run operation hallowed
    exact ⟨result, object', hruns⟩
  binds key desc object' hallowed hruns := by
    obtain ⟨result, object'', hdefines⟩ := define hreached.inv key desc hallowed
    obtain ⟨rfl, rfl⟩ := Prod.mk.inj (Option.some.inj (hruns.symm.trans hdefines.runs))
    exact hdefines.binds rfl
  unchanged key desc result object' hallowed hruns hresult := by
    obtain ⟨result', object'', hdefines⟩ := define hreached.inv key desc hallowed
    obtain ⟨rfl, rfl⟩ := Prod.mk.inj (Option.some.inj (hruns.symm.trans hdefines.runs))
    exact hdefines.unchanged hresult

/-- Values that are numbers, for runs on concrete calls. -/
def natEngine : Engine Nat where
  undefined := 0
  sameValue := (· == ·)
  makeUint32Value := id
  typeErrorThrower := 100
  arrayPrototypeValues := 101

/-- `f(1, 2, 3)` for `function f(a, b, a)`. -/
def repeatedNameCall : Call Nat Char where
  mappedArgumentsNeeded := true
  formals := ['a', 'b', 'a']
  function := 102
  argList := [1, 2, 3]
  lexEnv := Function.update (Function.update (fun _ => 0) 'b' 2) 'a' 3

/-- `{ value: 7 }`, for `Object.defineProperty`. -/
def valueSeven : Descriptor Nat where
  value := some 7
  writable := none
  get := none
  set := none
  enumerable := none
  configurable := none
  shouldThrow := true
  exclusive _ := ⟨rfl, rfl⟩

theorem parameterMap_repeatedName :
    ∃ object, (Operation.define (.index 2) valueSeven).run natEngine (createArgumentsObject natEngine repeatedNameCall) =
        some (.isTrue, object) ∧ object.lexEnv 'a' = 7 ∧
      Follows natEngine repeatedNameCall [.defined (.index 2) valueSeven] object := by
  have hallowed : (Operation.define (.index 2) valueSeven).Allowed natEngine
      (createArgumentsObject natEngine repeatedNameCall) := by
    intro _
    rw [if_neg (by decide)]
    intro _
    decide
  exact ⟨_, rfl, rfl, parameterMap (.step (.create fun i hi => hi.2.1) hallowed rfl)⟩

/-- `f()` for `function f(a, a)`: index 0 is an own property, and there is no actual argument. -/
theorem repeatedName_owned : ¬ ∀ (call : Call Nat Char) (i : Nat),
    hasOwnProperty natEngine (createArgumentsObject natEngine call) (.index i) = true ↔
      Owned call.argList.length i ([] : List (Event Nat Char)) := by
  intro h
  exact Nat.not_lt_zero 0 ((h { repeatedNameCall with formals := ['a', 'a'], argList := [] } 0).mp rfl)

/-- Outside the condition: a value that is defined at a tracked index becomes the value of the binding also where there is
no actual argument, and also if the definition is rejected without an error. -/
theorem define_tracked (hinv : Inv engine call past object) {i : Nat} (htracked : object.isTracked i = true)
    {desc : Descriptor V} {value : V} (hvalue : desc.value = some value)
    (hdesc : rejects engine object (.index i) desc = false ∨ desc.shouldThrow = false) :
    ∃ result object' name, LastOf call.formals i name ∧
      defineOwnProperty engine object (.index i) desc = some (result, object') ∧
      object'.lexEnv = Function.update object.lexEnv name value := by
  obtain ⟨found, object₁, hlooks, hgeneral⟩ := generalDefine hinv (.index i) desc
  have htracked₁ := (hlooks.tracked i).trans htracked
  obtain ⟨name, hname, hlast⟩ := (hinv.step hlooks.same (Or.inl rfl) hlooks.fits).tracked_name htracked₁
  have hbinds : ∀ result object₂, object₂.isTracked i = true → object₂.getFormalParameter i = some name →
      object₂.lexEnv = object.lexEnv → result ≠ .error →
      generalDefineOwnProperty engine object (.index i) desc = some (result, object₂) →
      ∃ result object' name, LastOf call.formals i name ∧
        defineOwnProperty engine object (.index i) desc = some (result, object') ∧
        object'.lexEnv = Function.update object.lexEnv name value := by
    intro result object₂ htracked₂ hname₂ hlexEnv₂ herror hruns
    obtain ⟨object', hupdate, hlexEnv⟩ : ∃ object', updateMap object₂ i desc = some object' ∧
        object'.lexEnv = Function.update object.lexEnv name value :=
      ⟨_, updateMap_eq hname₂ desc, by dsimp only; rw [hvalue, hlexEnv₂]⟩
    refine ⟨result, object', name, hlast, ?_, hlexEnv⟩
    rw [defineOwnProperty_tracked hruns herror htracked₂, hupdate]
    rfl
  obtain ⟨-, new, -, hruns⟩ | ⟨hrejects, -, hruns⟩ := hgeneral
  · exact hbinds .isTrue (object₁.setProperty (.index i) (some new)) htracked₁ hname hlooks.lexEnv nofun hruns
  · have hthrow : desc.shouldThrow = false := hdesc.resolve_left (by rw [hrejects]; decide)
    exact hbinds _ _ htracked₁ hname hlooks.lexEnv (by rw [hthrow]; nofun) hruns

end Arguments
end JJS
