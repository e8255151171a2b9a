import Mathlib.Tactic.Set
import JJS.Arguments.Fits

/-!
# JJS.Arguments.LookUp

A look-up never fails and keeps the invariant (`lookUp`). The look-up that instantiates an index finds the value of its
slot, and the next one the value of the binding, so a look-up can only be repeated once the property is there. A definition
looks its property up first, but only one that is there can be rejected, which is why nothing changes then
(`LooksUp.unchanged`).
-/

namespace JJS
namespace Arguments

variable {V Name : Type} [DecidableEq Name] {engine : Engine V} {call : Call V Name} {past : List (Event V Name)}
variable {object object' : ArgumentsObject V Name} {key : Key Name} {i : Nat} {p : Property V}

/-! ## The branches of a look-up -/

theorem getOwnProperty_of_none (hnone : object.properties key = none) :
    getOwnProperty engine object key = tryToLazyInstantiateProperty engine object key := by
  simp only [getOwnProperty, hnone]

theorem getOwnProperty_of_named (hsome : object.properties key = some p) (hkey : ∀ i, key ≠ .index i) :
    getOwnProperty engine object key = some (some p, object) := by
  cases key with
  | index i => exact absurd rfl (hkey i)
  | length => simp only [getOwnProperty, hsome]
  | callee => simp only [getOwnProperty, hsome]
  | iterator => simp only [getOwnProperty, hsome]
  | other name => simp only [getOwnProperty, hsome]

theorem getOwnProperty_of_untracked (hsome : object.properties (.index i) = some p) (hnot : object.isTracked i = false) :
    getOwnProperty engine object (.index i) = some (some p, object) := by
  simp only [getOwnProperty, hsome, hnot, Bool.false_eq_true, if_false]

theorem getOwnProperty_of_tracked (hsome : object.properties (.index i) = some p) (htracked : object.isTracked i = true)
    {name : Name} (hname : object.getFormalParameter i = some name) {value : V} {writable : Bool}
    (hdata : p.content = .data value writable) :
    getOwnProperty engine object (.index i) = some
      (some { p with content := .data (object.lexEnv name) writable },
        object.setProperty (.index i) (some { p with content := .data (object.lexEnv name) writable })) := by
  simp only [getOwnProperty, hsome, htracked, if_true, hname, Option.bind_eq_bind, Option.bind_some, hdata]

omit [DecidableEq Name] in
theorem isTracked_congr (hmapped : object'.mapped = object.mapped)
    (hformals : object'.formalParameters = object.formalParameters)
    (hslot : (∃ value, object'.argv[i]? = some (.value value)) ↔ ∃ value, object.argv[i]? = some (.value value)) :
    object'.isTracked i = object.isTracked i := by
  rw [Bool.eq_iff_iff, isTracked_iff, isTracked_iff, hmapped, hformals, hslot]

omit [DecidableEq Name] in
theorem SameBut.isTracked (hsame : SameBut key object object') (hne : Key.index i ≠ key) :
    object'.isTracked i = object.isTracked i := by
  refine isTracked_congr hsame.mapped hsame.formalParameters ?_
  rw [hsame.argv i hne]

/-! ## A look-up -/

/-- What a look-up finds. -/
def observe (engine : Engine V) (object : ArgumentsObject V Name) (key : Key Name) : Option (Option (Property V)) :=
  (getOwnProperty engine object key).map Prod.fst

/-- What a look-up of a key does. -/
structure LooksUp (engine : Engine V) (call : Call V Name) (past : List (Event V Name)) (key : Key Name)
    (object object' : ArgumentsObject V Name) (found : Option (Property V)) : Prop where
  runs : getOwnProperty engine object key = some (found, object')
  again : (∀ p, found = some p → p.configurable = false) → getOwnProperty engine object' key = some (found, object')
  same : SameBut key object object'
  lexEnv : object'.lexEnv = object.lexEnv
  extensible : object'.extensible = object.extensible
  properties : object'.properties key = found
  fits : Fits engine call past object' key
  tracked : ∀ i, object'.isTracked i = object.isTracked i
  missing : ∀ i, key = .index i → found = none → ¬ Owned call.argList.length i past

theorem LooksUp.stay {found : Option (Property V)} (hruns : getOwnProperty engine object key = some (found, object))
    (hproperties : object.properties key = found) (hfits : Fits engine call past object key)
    (hmissing : ∀ i, key = .index i → found = none → ¬ Owned call.argList.length i past) :
    LooksUp engine call past key object object found where
  runs := hruns
  again _ := hruns
  same := SameBut.refl key object
  lexEnv := rfl
  extensible := rfl
  properties := hproperties
  fits := hfits
  tracked _ := rfl
  missing := hmissing

/-- The look-up of a name that is instantiated now. -/
theorem LooksUp.instantiate (hkey : ∀ i, key ≠ .index i) (hnone : object.properties key = none)
    (hlazy : tryToLazyInstantiateProperty engine object key = some (some p, object.setProperty key (some p)))
    (hfits : Fits engine call past (object.setProperty key (some p)) key) :
    LooksUp engine call past key object (object.setProperty key (some p)) (some p) where
  runs := (getOwnProperty_of_none hnone).trans hlazy
  again _ := getOwnProperty_of_named (object.setProperty_self ..) hkey
  same := SameBut.setProperty key object (some p)
  lexEnv := rfl
  extensible := rfl
  properties := object.setProperty_self ..
  fits := hfits
  tracked _ := rfl
  missing i hindex := absurd hindex (hkey i)

theorem getOwnProperty_missing (hnone : object.properties key = none)
    (hlazy : tryToLazyInstantiateProperty engine object key = some (none, object)) :
    getOwnProperty engine object key = some (none, object) :=
  (getOwnProperty_of_none hnone).trans hlazy

omit [DecidableEq Name] in
/-- A slot with a value that moves to the property list. -/
theorem IndexFits.instantiate {value : V} (hfits : IndexFits engine call past i (some (.value value)) none)
    (hactual : i < call.argList.length) :
    IndexFits engine call past i (some (.value engine.undefined)) (some (.ofValue value true true)) where
  present _ := (nomatch ·)
  owned := iff_of_true (Or.inl rfl) (hfits.owned.mp (Or.inr ⟨hactual, (nomatch ·)⟩))
  shadowed hmapped hformal hnot := nomatch hfits.shadowed hmapped hformal hnot
  kept hmapped _ name hlast := iff_of_true ⟨_, rfl⟩ ((hfits.kept hmapped hactual name hlast).mp ⟨_, rfl⟩)
  isData _ _ _ p hp := by
    obtain rfl := Option.some.inj hp
    exact ⟨value, true, rfl⟩
  noTrack h := nomatch h
  builtIn _ _ _ := ⟨hactual, Or.inl rfl⟩
  plain p hp hplain _ := by
    obtain rfl := Option.some.inj hp
    cases hplain

omit [DecidableEq Name] in
/-- The value of a property makes no difference. -/
theorem IndexFits.withValue {slot : Option (Slot V)} {new : V} {writable : Bool}
    (hfits : IndexFits engine call past i slot (some p)) :
    IndexFits engine call past i slot (some { p with content := .data new writable }) where
  present := hfits.present
  owned := hfits.owned
  shadowed := hfits.shadowed
  kept := hfits.kept
  isData _ _ _ q hq := by
    obtain rfl := Option.some.inj hq
    exact ⟨new, writable, rfl⟩
  noTrack _ _ := rfl
  builtIn q hq hbuiltIn := by
    obtain rfl := Option.some.inj hq
    exact hfits.builtIn p rfl hbuiltIn
  plain q hq hplain := by
    obtain rfl := Option.some.inj hq
    exact hfits.plain p rfl hplain

/-- The look-up of an index that is instantiated now. -/
theorem lookUp_index_lazy (hinv : Inv engine call past object) (hnone : object.properties (.index i) = none)
    (hactual : i < call.argList.length) {value : V} (hslot : object.argv[i]? = some (.value value)) :
    ∃ object', LooksUp engine call past (.index i) object object' (some (.ofValue value true true)) := by
  have hfits := hinv.fits (.index i)
  rw [Fits, hnone, hslot] at hfits
  have hlt : i < object.argv.length := (List.getElem?_eq_some_iff.mp hslot).1
  set property := Property.ofValue value true true with hproperty
  set object' := (object.setProperty (.index i) (some property)).setSlot i (.value engine.undefined) with hobject'
  have hslot' : object'.argv[i]? = some (.value engine.undefined) := List.getElem?_set_self hlt
  have hproperties : object'.properties (.index i) = some property := Function.update_self ..
  have hsame : SameBut (.index i) object object' := (SameBut.setProperty _ object _).trans (SameBut.setSlot i _ _)
  have htracked : ∀ j, object'.isTracked j = object.isTracked j := by
    intro j
    by_cases hj : j = i
    · rw [hj]
      exact isTracked_congr rfl rfl (iff_of_true ⟨_, hslot'⟩ ⟨_, hslot⟩)
    · exact hsame.isTracked fun h => hj (Key.index.inj h)
  refine ⟨object', ?_, fun hfixed => Bool.noConfusion (hfixed property rfl), hsame, rfl, rfl, hproperties, ?_, htracked,
    fun _ _ h => absurd h (Option.some_ne_none _)⟩
  · rw [getOwnProperty_of_none hnone, tryToLazyInstantiateProperty, hinv.argumentsNumber,
      if_neg (Nat.not_le.mpr hactual), hslot]
  · rw [Fits, hslot', hproperties]
    exact hfits.instantiate hactual

/-- The look-up of an index that has a property already. -/
theorem lookUp_index_some (hinv : Inv engine call past object) (hsome : object.properties (.index i) = some p) :
    ∃ object' found, LooksUp engine call past (.index i) object object' (some found) := by
  have hfits := hinv.fits (.index i)
  cases htracked : object.isTracked i with
  | false =>
    exact ⟨object, p, LooksUp.stay (getOwnProperty_of_untracked hsome htracked) hsome hfits fun _ _ h => nomatch h⟩
  | true =>
    obtain ⟨name, hname, hlast⟩ := hinv.tracked_name htracked
    obtain ⟨hmapped, -, hslot⟩ := isTracked_iff.mp htracked
    obtain ⟨value, writable, hdata⟩ := hfits.isData (hinv.mapped.symm.trans hmapped)
      (List.getElem?_eq_some_iff.mp hlast.1).1 hslot p hsome
    set found : Property V := { p with content := .data (object.lexEnv name) writable } with hfound
    have hproperties : (object.setProperty (.index i) (some found)).properties (.index i) = some found :=
      object.setProperty_self ..
    refine ⟨object.setProperty (.index i) (some found), found, ?_, fun _ => ?_, SameBut.setProperty _ object _, rfl, rfl,
      hproperties, ?_, fun _ => rfl, fun _ _ h => nomatch h⟩
    · exact getOwnProperty_of_tracked hsome htracked hname hdata
    · have hagain : getOwnProperty engine (object.setProperty (.index i) (some found)) (.index i) =
          some (some found, (object.setProperty (.index i) (some found)).setProperty (.index i) (some found)) :=
        getOwnProperty_of_tracked hproperties htracked hname rfl
      rw [hagain, object.setProperty_setProperty]
    · rw [Fits, hproperties]
      rw [Fits, hsome] at hfits
      exact hfits.withValue

theorem lookUp_index (hinv : Inv engine call past object) (i : Nat) :
    ∃ object' found, LooksUp engine call past (.index i) object object' found := by
  have hfits := hinv.fits (.index i)
  cases hproperty : object.properties (.index i) with
  | some p =>
    obtain ⟨object', found, hlooks⟩ := lookUp_index_some hinv hproperty
    exact ⟨object', some found, hlooks⟩
  | none =>
    rw [Fits, hproperty] at hfits
    by_cases hactual : i < call.argList.length
    · cases hslot : object.argv[i]? with
      | none => exact absurd hslot (hfits.present hactual)
      | some slot =>
        cases slot with
        | value value =>
          obtain ⟨object', hlooks⟩ := lookUp_index_lazy hinv hproperty hactual hslot
          exact ⟨object', _, hlooks⟩
        | empty =>
          refine ⟨object, none, LooksUp.stay (getOwnProperty_missing hproperty ?_) hproperty (hinv.fits _) ?_⟩
          · rw [tryToLazyInstantiateProperty, hinv.argumentsNumber, if_neg (Nat.not_le.mpr hactual), hslot]
          · intro j hj _ howned
            obtain rfl := Key.index.inj hj
            obtain h | ⟨-, hne⟩ := hfits.owned.mpr howned
            · cases h
            · exact hne hslot
        | noTrack => exact absurd (hfits.noTrack hslot hactual) Bool.false_ne_true
    · refine ⟨object, none, LooksUp.stay (getOwnProperty_missing hproperty ?_) hproperty (hinv.fits _) ?_⟩
      · rw [tryToLazyInstantiateProperty, hinv.argumentsNumber, if_pos (Nat.le_of_not_lt hactual)]
      · intro j hj _ howned
        obtain rfl := Key.index.inj hj
        obtain h | ⟨hlt, -⟩ := hfits.owned.mpr howned
        · cases h
        · exact hactual hlt

/-- The look-up of a name that is instantiated once: `initialized` says that it was deleted. -/
theorem lookUp_named (hinv : Inv engine call past object) (hkey : ∀ i, key ≠ .index i) {initialized : Bool}
    (hlazy : tryToLazyInstantiateProperty engine object key =
      if initialized then some (none, object) else some (some p, object.setProperty key (some p)))
    (hfits : initialized = false → Fits engine call past (object.setProperty key (some p)) key) :
    ∃ object' found, LooksUp engine call past key object object' found := by
  cases hproperty : object.properties key with
  | some q =>
    exact ⟨object, some q, LooksUp.stay (getOwnProperty_of_named hproperty hkey) hproperty (hinv.fits key)
      fun _ _ h => nomatch h⟩
  | none =>
    cases initialized with
    | true =>
      exact ⟨object, none, LooksUp.stay (getOwnProperty_missing hproperty hlazy) hproperty (hinv.fits key)
        fun i hindex => absurd hindex (hkey i)⟩
    | false => exact ⟨_, _, LooksUp.instantiate hkey hproperty hlazy (hfits rfl)⟩

/-- A look-up does not run into a failed assertion, and keeps the invariant. -/
theorem lookUp (hinv : Inv engine call past object) (key : Key Name) :
    ∃ object' found, LooksUp engine call past key object object' found := by
  cases key with
  | index i => exact lookUp_index hinv i
  | length => exact lookUp_named hinv (fun _ => nofun) rfl fun hnot _ _ _ => hnot
  | callee =>
    refine lookUp_named hinv (fun _ => nofun) rfl fun hnot p hp _ => ⟨hnot, ?_⟩
    cases hmapped : object.mapped with
    | true => exact Or.inl hmapped
    | false =>
      refine Or.inr ?_
      rw [object.setProperty_self, if_neg (by rw [hmapped]; exact Bool.false_ne_true)] at hp
      obtain rfl := Option.some.inj hp
      rfl
  | iterator => exact lookUp_named hinv (fun _ => nofun) rfl fun hnot _ _ _ => hnot
  | other name =>
    cases hproperty : object.properties (.other name) with
    | some p =>
      exact ⟨object, some p, LooksUp.stay (getOwnProperty_of_named hproperty fun _ => nofun) hproperty (hinv.fits _)
        fun _ _ h => nomatch h⟩
    | none =>
      exact ⟨object, none, LooksUp.stay (getOwnProperty_missing hproperty rfl) hproperty (hinv.fits _) fun _ h => nomatch h⟩

/-! ## What a look-up leaves -/

/-- Every look-up finds the same, and the bindings, the tracked indices and whether properties can be added are the same. -/
structure Unchanged (engine : Engine V) (object object' : ArgumentsObject V Name) : Prop where
  observe : ∀ key, observe engine object' key = observe engine object key
  lexEnv : object'.lexEnv = object.lexEnv
  extensible : object'.extensible = object.extensible
  tracked : ∀ i, object'.isTracked i = object.isTracked i

/-- What another key would be instantiated with. -/
theorem SameBut.tryToLazyInstantiate (hsame : SameBut key object object') {other : Key Name} (hne : other ≠ key) :
    (tryToLazyInstantiateProperty engine object' other).map Prod.fst =
      (tryToLazyInstantiateProperty engine object other).map Prod.fst := by
  cases other with
  | index i =>
    rw [tryToLazyInstantiateProperty, tryToLazyInstantiateProperty, hsame.argumentsNumber, hsame.argv i hne]
    split
    · rfl
    · split <;> rfl
  | length =>
    rw [tryToLazyInstantiateProperty, tryToLazyInstantiateProperty, hsame.lengthInitialized hne, hsame.argumentsNumber]
    split <;> rfl
  | callee =>
    rw [tryToLazyInstantiateProperty, tryToLazyInstantiateProperty, hsame.calleeInitialized hne, hsame.mapped,
      hsame.calleeValue]
    split <;> rfl
  | iterator =>
    rw [tryToLazyInstantiateProperty, tryToLazyInstantiateProperty, hsame.iteratorInitialized hne]
    split <;> rfl
  | other name => rfl

/-- What a look-up of another key finds. -/
theorem SameBut.observe (hsame : SameBut key object object') (hlexEnv : object'.lexEnv = object.lexEnv) {other : Key Name}
    (hne : other ≠ key) : observe engine object' other = observe engine object other := by
  have hproperties := hsame.properties other hne
  cases hproperty : object.properties other with
  | none =>
    rw [Arguments.observe, Arguments.observe, getOwnProperty_of_none hproperty,
      getOwnProperty_of_none (hproperties.trans hproperty), hsame.tryToLazyInstantiate hne]
  | some p =>
    rw [hproperty] at hproperties
    by_cases hkey : ∀ i, other ≠ .index i
    · rw [Arguments.observe, Arguments.observe, getOwnProperty_of_named hproperty hkey,
        getOwnProperty_of_named hproperties hkey]
      rfl
    · obtain ⟨i, hindex⟩ := not_forall_not.mp hkey
      subst hindex
      simp only [Arguments.observe, getOwnProperty, hproperty, hproperties, hsame.isTracked hne,
        ArgumentsObject.getFormalParameter, hsame.formalParameters, hlexEnv]
      split
      · cases hname : object.formalParameters[i]?.join with
        | none => rfl
        | some name => cases hcontent : p.content <;> rfl
      · rfl

/-- Nothing is different after a look-up that finds nothing, or a property that cannot be changed. -/
theorem LooksUp.unchanged {found : Option (Property V)} (hlooks : LooksUp engine call past key object object' found)
    (hfixed : ∀ p, found = some p → p.configurable = false) : Unchanged engine object object' where
  observe other := by
    by_cases hne : other = key
    · rw [hne, Arguments.observe, Arguments.observe, hlooks.runs, hlooks.again hfixed]
    · exact hlooks.same.observe hlooks.lexEnv hne
  lexEnv := hlooks.lexEnv
  extensible := hlooks.extensible
  tracked := hlooks.tracked

end Arguments
end JJS
