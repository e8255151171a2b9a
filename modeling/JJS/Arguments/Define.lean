import JJS.Arguments.LookUp

/-!
# JJS.Arguments.Define

Definitions and deletions. The definition of a tracked index follows the parameter map if it meets the condition
`Operation.Allowed`: the source goes on when a definition was rejected without an error, and it also tracks the indices of
the formal parameters that have no actual argument.
-/

namespace JJS
namespace Arguments

variable {V Name : Type} [DecidableEq V] [DecidableEq Name] {engine : Engine V} {call : Call V Name}
variable {past : List (Event V Name)} {object object' : ArgumentsObject V Name} {key : Key Name} {i : Nat}
variable {desc : Descriptor V}

/-! ## The condition -/

/-- A descriptor that the source would do something with for a tracked index. -/
def Descriptor.changesMap {V : Type} (desc : Descriptor V) : Bool :=
  desc.isAccessor || desc.isReadOnly || desc.value.isSome

/-- The property that is there does not allow a definition, or there is none and none can be added. -/
def rejects (engine : Engine V) (object : ArgumentsObject V Name) (key : Key Name) (desc : Descriptor V) : Bool :=
  match getOwnProperty engine object key with
  | some (some property, _) => rejectsRedefinition engine desc property
  | some (none, _) => !object.extensible
  | none => false

/-- A definition that does not reach a defect: of a tracked index, a value is defined only if there is an actual argument,
and what is rejected without an error says nothing about the value, the accessors or the writable attribute. -/
def Operation.Allowed (engine : Engine V) (object : ArgumentsObject V Name) : Operation V Name → Prop
  | .define (.index i) desc => object.isTracked i = true →
      if rejects engine object (.index i) desc = true then desc.shouldThrow = true ∨ desc.changesMap = false
      else desc.value.isSome = true → i < object.argumentsNumber
  | _ => True

/-! ## The general definition -/

/-- How the property that is defined comes from the property that was there. -/
structure Replaces (desc : Descriptor V) (found : Option (Property V)) (new : Property V) : Prop where
  builtIn : new.builtIn = true → ∃ p, found = some p ∧ p.builtIn = true ∧ (p.configurable = false → new.configurable = false)
  plain : new.builtIn = false → ∀ p, found = some p → p.builtIn = false
  isData : desc.isAccessor = false → (∀ p, found = some p → ∃ value writable, p.content = .data value writable) →
    ∃ value writable, new.content = .data value writable

omit [DecidableEq V] in
theorem descType_ne_accessor (hdesc : desc.isAccessor = false) : desc.descType ≠ .accessor := by
  rw [Descriptor.descType, hdesc]
  split
  · nofun
  · rw [if_neg Bool.false_ne_true]
    nofun

omit [DecidableEq V] in
theorem replaces_new (engine : Engine V) (desc : Descriptor V) : Replaces desc none (newProperty engine desc) where
  builtIn h := nomatch h
  plain _ _ h := nomatch h
  isData hdesc _ := by
    rw [newProperty, if_neg (descType_ne_accessor hdesc)]
    exact ⟨_, _, rfl⟩

omit [DecidableEq V] in
theorem redefineContent_isData (engine : Engine V) (hdesc : desc.isAccessor = false) (value : V) (writable : Bool) :
    ∃ value' writable', redefineContent engine desc (.data value writable) = .data value' writable' := by
  cases htype : desc.descType with
  | generic => exact ⟨value, writable, by simp only [redefineContent, htype]⟩
  | data => exact ⟨desc.value.getD value, desc.writable.getD writable, by simp only [redefineContent, htype]⟩
  | accessor => exact absurd htype (descType_ne_accessor hdesc)

theorem replaces_redefine {p : Property V} (haccepted : rejectsRedefinition engine desc p = false) :
    Replaces desc (some p) (redefineProperty engine desc p) where
  builtIn hbuiltIn := by
    refine ⟨p, rfl, hbuiltIn, fun hfixed => ?_⟩
    rw [rejectsRedefinition, hfixed, Bool.not_false, Bool.true_and, Bool.or_eq_false_iff, Bool.or_eq_false_iff] at haccepted
    rw [redefineProperty, hfixed]
    cases hconfigurable : desc.configurable with
    | none => rfl
    | some configurable =>
      rw [hconfigurable] at haccepted
      cases configurable with
      | false => rfl
      | true => cases haccepted.1.1
  plain hplain q hq := by
    obtain rfl := Option.some.inj hq
    exact hplain
  isData hdesc hdata := by
    obtain ⟨value, writable, hcontent⟩ := hdata p rfl
    have hredefined := redefineContent_isData engine hdesc value writable
    rw [← hcontent] at hredefined
    exact hredefined

/-- A definition that is accepted looks up and replaces the property, and one that is rejected only looks it up. -/
theorem generalDefine (hinv : Inv engine call past object) (key : Key Name) (desc : Descriptor V) :
    ∃ found object', LooksUp engine call past key object object' found ∧
      ((rejects engine object key desc = false ∧ ∃ new, Replaces desc found new ∧
        generalDefineOwnProperty engine object key desc = some (.isTrue, object'.setProperty key (some new))) ∨
      (rejects engine object key desc = true ∧ (∀ p, found = some p → p.configurable = false) ∧
        generalDefineOwnProperty engine object key desc = some (reject desc.shouldThrow, object'))) := by
  obtain ⟨object', found, hlooks⟩ := lookUp hinv key
  refine ⟨found, object', hlooks, ?_⟩
  have hruns := hlooks.runs
  rw [rejects, generalDefineOwnProperty, hruns, Option.bind_eq_bind, Option.bind_some]
  cases found with
  | none =>
    cases hextensible : object.extensible with
    | true =>
      refine Or.inl ⟨rfl, newProperty engine desc, replaces_new engine desc, ?_⟩
      simp only [hlooks.extensible, hextensible, if_true]
    | false =>
      refine Or.inr ⟨rfl, (fun _ h => nomatch h), ?_⟩
      simp only [hlooks.extensible, hextensible, Bool.false_eq_true, if_false]
  | some p =>
    cases hrejects : rejectsRedefinition engine desc p with
    | false =>
      refine Or.inl ⟨hrejects, redefineProperty engine desc p, replaces_redefine hrejects, ?_⟩
      simp only [hrejects, Bool.false_eq_true, if_false]
    | true =>
      refine Or.inr ⟨hrejects, fun q hq => ?_, ?_⟩
      · obtain rfl := Option.some.inj hq
        rw [rejectsRedefinition, Bool.and_eq_true] at hrejects
        exact Bool.not_eq_true' _ ▸ hrejects.1
      · simp only [hrejects, if_true]

/-! ## The definition of a property of an arguments object -/

/-- The slot after a definition. -/
def slotAfter {V : Type} (tracked : Bool) (desc : Descriptor V) (slot : Option (Slot V)) : Option (Slot V) :=
  if tracked && (desc.isAccessor || desc.isReadOnly) then some .noTrack else slot

omit [DecidableEq V] [DecidableEq Name] in
theorem IndexFits.define {slot : Option (Slot V)} {found : Option (Property V)} {new : Property V} {tracked : Bool}
    (hfits : IndexFits engine call past i slot found) (hreplaces : Replaces desc found new)
    (hmissing : found = none → ¬ Owned call.argList.length i past)
    (htracked : tracked = true ↔
      call.mappedArgumentsNeeded = true ∧ i < call.formals.length ∧ ∃ value, slot = some (.value value)) :
    IndexFits engine call (.defined (.index i) desc :: past) i (slotAfter tracked desc slot) (some new) := by
  have hempty : slot = some .empty → slotAfter tracked desc slot = some .empty := by
    intro hslot
    have hnot : tracked = false := by
      rw [← Bool.not_eq_true, htracked]
      rintro ⟨-, -, value, hvalue⟩
      rw [hslot] at hvalue
      cases hvalue
    rw [slotAfter, hnot, Bool.false_and, if_neg Bool.false_ne_true, hslot]
  -- A slot that still has a value was not severed by this definition, if it was tracked.
  have hvalue : (∃ value, slotAfter tracked desc slot = some (.value value)) ↔
      (∃ value, slot = some (.value value)) ∧ ¬ (tracked = true ∧ (desc.isAccessor || desc.isReadOnly) = true) := by
    rw [slotAfter, ← Bool.and_eq_true]
    split
    case isTrue hsevered => exact iff_of_false (fun ⟨_, h⟩ => nomatch h) fun h => h.2 hsevered
    case isFalse hkept => exact ⟨fun h => ⟨h, hkept⟩, And.left⟩
  constructor
  case present =>
    intro hactual
    rw [slotAfter]
    split
    · nofun
    · exact hfits.present hactual
  case owned => exact iff_of_true (Or.inl rfl) (Or.inl rfl)
  case shadowed => exact fun hmapped hformal hnot => hempty (hfits.shadowed hmapped hformal hnot)
  case kept =>
    intro hmapped hactual name hlast
    have hformal : i < call.formals.length := (List.getElem?_eq_some_iff.mp hlast.1).1
    rw [hvalue, htracked]
    constructor
    · rintro ⟨hslot, hnot⟩ (⟨-, hsevered⟩ | hsevered)
      · exact hnot ⟨⟨hmapped, hformal, hslot⟩, hsevered⟩
      · exact (hfits.kept hmapped hactual name hlast).mp hslot hsevered
    · intro hnot
      refine ⟨(hfits.kept hmapped hactual name hlast).mpr fun h => hnot (Or.inr h), fun h => hnot (Or.inl ⟨rfl, h.2⟩)⟩
  case isData =>
    intro hmapped hformal hslot' p hp
    obtain rfl := Option.some.inj hp
    obtain ⟨hslot, hnot⟩ := hvalue.mp hslot'
    refine hreplaces.isData ?_ (hfits.isData hmapped hformal hslot)
    rw [← Bool.not_eq_true]
    exact fun haccessor => hnot ⟨htracked.mpr ⟨hmapped, hformal, hslot⟩, by rw [haccessor, Bool.true_or]⟩
  case noTrack => exact fun _ _ => rfl
  case builtIn =>
    intro p hp hbuiltIn
    obtain rfl := Option.some.inj hp
    obtain ⟨q, hq, hbuiltIn', -⟩ := hreplaces.builtIn hbuiltIn
    obtain ⟨hactual, hslot⟩ := hfits.builtIn q hq hbuiltIn'
    refine ⟨hactual, ?_⟩
    rw [slotAfter]
    split
    · exact Or.inr rfl
    · exact hslot
  case plain =>
    intro p hp hplain hactual
    obtain rfl := Option.some.inj hp
    refine hempty ?_
    cases hfound : found with
    | some q => exact hfits.plain q hfound (hreplaces.plain hplain q hfound) hactual
    | none =>
      refine Classical.not_not.mp fun hne => hmissing hfound (hfits.owned.mp (Or.inr ⟨hactual, hne⟩))

omit [DecidableEq V] in
/-- The definition of a tracked index, given the name of its formal parameter. -/
theorem updateMap_eq {name : Name} (hname : object.getFormalParameter i = some name) (desc : Descriptor V) :
    updateMap object i desc = some { object with
      argv := if desc.isAccessor || desc.isReadOnly then object.argv.set i .noTrack else object.argv
      lexEnv := match desc.value with
        | none => object.lexEnv
        | some value => Function.update object.lexEnv name value } := by
  cases haccessor : desc.isAccessor with
  | true =>
    have hvalue : desc.value = none := by
      rw [← Option.not_isSome_iff_eq_none]
      intro hvalue
      obtain ⟨hget, hset⟩ := desc.exclusive (Or.inl hvalue)
      rw [Descriptor.isAccessor, hget, hset] at haccessor
      cases haccessor
    simp only [updateMap, haccessor, hvalue, if_true, Bool.true_or, ArgumentsObject.setSlot]
  | false =>
    rw [updateMap, haccessor, if_neg Bool.false_ne_true, Bool.false_or]
    cases hvalue : desc.value with
    | none =>
      cases hreadOnly : desc.isReadOnly <;> rfl
    | some value =>
      rw [hname]
      cases hreadOnly : desc.isReadOnly <;> rfl

omit [DecidableEq V] in
/-- What it does to the variable: it keeps its value, or gets the one that is defined. -/
theorem updateMap_lexEnv {name : Name} (hname : object.getFormalParameter i = some name) {desc : Descriptor V}
    (hupdate : updateMap object i desc = some object') : (desc.value = none → object'.lexEnv = object.lexEnv) ∧
      ∀ value, desc.value = some value → object'.lexEnv = Function.update object.lexEnv name value := by
  rw [updateMap_eq hname] at hupdate
  obtain rfl := Option.some.inj hupdate
  constructor
  · intro hvalue
    simp only [hvalue]
  · intro value hvalue
    simp only [hvalue]

omit [DecidableEq V] [DecidableEq Name] in
theorem updateMap_argv (hlt : i < object.argv.length) (desc : Descriptor V) :
    (if desc.isAccessor || desc.isReadOnly then object.argv.set i .noTrack else object.argv)[i]? =
      slotAfter true desc object.argv[i]? := by
  rw [slotAfter, Bool.true_and]
  split
  · exact List.getElem?_set_self hlt
  · rfl

omit [DecidableEq V] in
/-- The map changes at one index. -/
theorem updateMap_sameBut {name : Name} (hname : object.getFormalParameter i = some name)
    (hruns : updateMap object i desc = some object') : SameBut (.index i) object object' := by
  rw [updateMap_eq hname] at hruns
  obtain rfl := Option.some.inj hruns
  refine { SameBut.refl (.index i) object with argv := fun j hne => ?_ }
  dsimp only
  split
  · exact List.getElem?_set_ne fun hij => hne (congrArg Key.index hij.symm)
  · rfl

/-- How a definition that is accepted changes the bindings. -/
structure Binds (call : Call V Name) (past : List (Event V Name)) (key : Key Name) (desc : Descriptor V)
    (lexEnv lexEnv' : Name → V) : Prop where
  mapped : ∀ i name value, key = .index i → call.Maps past i name → desc.value = some value →
    lexEnv' = Function.update lexEnv name value
  others : (∀ i name, key = .index i → call.Maps past i name → desc.value = none) → lexEnv' = lexEnv

/-- What an allowed definition does. -/
structure Defines (engine : Engine V) (call : Call V Name) (past : List (Event V Name)) (key : Key Name)
    (desc : Descriptor V) (object object' : ArgumentsObject V Name) (result : Completion) : Prop where
  runs : defineOwnProperty engine object key desc = some (result, object')
  inv : Inv engine call (if result = .isTrue then .defined key desc :: past else past) object'
  binds : result = .isTrue → Binds call past key desc object.lexEnv object'.lexEnv
  unchanged : result ≠ .isTrue → Unchanged engine object object'

theorem defineOwnProperty_named {result : Completion} (hkey : ∀ i, key ≠ .index i)
    (hgeneral : generalDefineOwnProperty engine object key desc = some (result, object')) :
    defineOwnProperty engine object key desc = some (result, object') := by
  rw [defineOwnProperty, hgeneral]
  cases key with
  | index i => exact absurd rfl (hkey i)
  | length => rfl
  | callee => rfl
  | iterator => rfl
  | other name => rfl

omit [DecidableEq V] in
/-- A name that is not an index fits after a definition. -/
theorem Fits.define_named {found : Option (Property V)} {new : Property V} (hkey : ∀ i, key ≠ .index i)
    (hfits : Fits engine call past object key) (hfound : object.properties key = found) (hreplaces : Replaces desc found new)
    (past' : List (Event V Name)) : Fits engine call past' (object.setProperty key (some new)) key := by
  have hprevious : ∀ p, some new = some p → p.builtIn = true →
      ∃ q, object.properties key = some q ∧ q.builtIn = true ∧ (q.configurable = false → p.configurable = false) := by
    intro p hp hbuiltIn
    obtain rfl := Option.some.inj hp
    rw [hfound]
    exact hreplaces.builtIn hbuiltIn
  cases key with
  | index i => exact absurd rfl (hkey i)
  | length =>
    rw [Fits, object.setProperty_self]
    intro p hp hbuiltIn
    obtain ⟨q, hq, hq', -⟩ := hprevious p hp hbuiltIn
    exact hfits q hq hq'
  | callee =>
    rw [Fits, object.setProperty_self]
    intro p hp hbuiltIn
    obtain ⟨q, hq, hq', hfixed⟩ := hprevious p hp hbuiltIn
    obtain ⟨hinitialized, hconfigurable⟩ := hfits q hq hq'
    exact ⟨hinitialized, hconfigurable.imp_right hfixed⟩
  | iterator =>
    rw [Fits, object.setProperty_self]
    intro p hp hbuiltIn
    obtain ⟨q, hq, hq', -⟩ := hprevious p hp hbuiltIn
    exact hfits q hq hq'
  | other name =>
    rw [Fits, object.setProperty_self]
    intro p hp
    rw [← Bool.not_eq_true]
    intro hbuiltIn
    obtain ⟨q, hq, hq', -⟩ := hprevious p hp hbuiltIn
    rw [hfits q hq] at hq'
    cases hq'

omit [DecidableEq V] [DecidableEq Name] in
theorem reject_ne_isTrue (shouldThrow : Bool) : reject shouldThrow ≠ .isTrue := by
  cases shouldThrow <;> nofun

/-- The rejected definition that only looks the property up. -/
theorem LooksUp.defines {found : Option (Property V)} (hinv : Inv engine call past object)
    (hlooks : LooksUp engine call past key object object' found) (hfixed : ∀ p, found = some p → p.configurable = false)
    (hruns : defineOwnProperty engine object key desc = some (reject desc.shouldThrow, object')) :
    Defines engine call past key desc object object' (reject desc.shouldThrow) where
  runs := hruns
  inv := by
    rw [if_neg (reject_ne_isTrue _)]
    exact hinv.step hlooks.same (Or.inl rfl) hlooks.fits
  binds h := absurd h (reject_ne_isTrue _)
  unchanged _ := hlooks.unchanged hfixed

/-- A definition of a name that is not an index. -/
theorem define_named (hinv : Inv engine call past object) (hkey : ∀ i, key ≠ .index i) (desc : Descriptor V) :
    ∃ result object', Defines engine call past key desc object object' result := by
  obtain ⟨found, object₁, hlooks, ⟨-, new, hreplaces, hgeneral⟩ | ⟨-, hfixed, hgeneral⟩⟩ := generalDefine hinv key desc
  · refine ⟨.isTrue, object₁.setProperty key (some new), defineOwnProperty_named hkey hgeneral, ?_, fun _ => ?_, nofun⟩
    · exact hinv.step (hlooks.same.trans (SameBut.setProperty key object₁ _)) (Or.inr ⟨.defined key desc, rfl, rfl⟩)
        (hlooks.fits.define_named hkey hlooks.properties hreplaces _)
    · exact ⟨fun i _ _ hindex => absurd hindex (hkey i), fun _ => hlooks.lexEnv⟩
  · exact ⟨_, object₁, hlooks.defines hinv hfixed (defineOwnProperty_named hkey hgeneral)⟩

/-- The definition of an index that is not tracked, or that ends with an error. -/
theorem defineOwnProperty_stop {result : Completion}
    (hgeneral : generalDefineOwnProperty engine object (.index i) desc = some (result, object'))
    (hstop : result = .error ∨ object'.isTracked i = false) :
    defineOwnProperty engine object (.index i) desc = some (result, object') := by
  rw [defineOwnProperty, hgeneral, Option.bind_eq_bind, Option.bind_some]
  exact if_pos hstop

/-- The definition of a tracked index. -/
theorem defineOwnProperty_tracked {result : Completion}
    (hgeneral : generalDefineOwnProperty engine object (.index i) desc = some (result, object')) (herror : result ≠ .error)
    (htracked : object'.isTracked i = true) :
    defineOwnProperty engine object (.index i) desc = (updateMap object' i desc).map (result, ·) := by
  rw [defineOwnProperty, hgeneral, Option.bind_eq_bind, Option.bind_some]
  refine (if_neg ?_).trans ?_
  · rintro (h | h)
    · exact herror h
    · rw [htracked] at h
      cases h
  · cases updateMap object' i desc <;> rfl

/-- The definition of an index, if it is accepted. -/
theorem define_index_accepted {found : Option (Property V)} {new : Property V} {object₁ : ArgumentsObject V Name}
    (hinv : Inv engine call past object) (hlooks : LooksUp engine call past (.index i) object object₁ found)
    (hreplaces : Replaces desc found new)
    (hgeneral : generalDefineOwnProperty engine object (.index i) desc =
      some (.isTrue, object₁.setProperty (.index i) (some new)))
    (hallowed : object.isTracked i = true → desc.value.isSome = true → i < object.argumentsNumber) :
    ∃ object', Defines engine call past (.index i) desc object object' .isTrue := by
  have hsame : SameBut (.index i) object (object₁.setProperty (.index i) (some new)) :=
    hlooks.same.trans (SameBut.setProperty _ object₁ _)
  have hinv₁ : Inv engine call past object₁ := hinv.step hlooks.same (Or.inl rfl) hlooks.fits
  have htracked₁ := hlooks.tracked i
  have hslot : object₁.isTracked i = true ↔ call.mappedArgumentsNeeded = true ∧ i < call.formals.length ∧
      ∃ value, object₁.argv[i]? = some (.value value) := by
    rw [isTracked_iff, hinv₁.mapped, hinv₁.formalParameters, length_formalParameterStart]
  have hfits₁ := hlooks.fits
  rw [Fits, hlooks.properties] at hfits₁
  have hfits := hfits₁.define hreplaces (hlooks.missing i rfl) hslot
  cases htracked : object.isTracked i with
  | false =>
    rw [htracked] at htracked₁
    refine ⟨_, defineOwnProperty_stop hgeneral (Or.inr htracked₁), ?_, fun _ => ⟨?_, fun _ => hlooks.lexEnv⟩,
      fun hne => absurd rfl hne⟩
    · refine hinv.step hsame (Or.inr ⟨.defined (.index i) desc, rfl, rfl⟩) ?_
      rw [Fits, object₁.setProperty_self]
      rwa [htracked₁, slotAfter, Bool.false_and, if_neg Bool.false_ne_true] at hfits
    · intro j name value hj hmaps _
      obtain rfl := Key.index.inj hj
      rw [(hinv.tracked_iff hmaps.actual hmaps.last).mpr hmaps] at htracked
      cases htracked
  | true =>
    rw [htracked] at htracked₁
    obtain ⟨name, hname, hlast⟩ := hinv₁.tracked_name htracked₁
    obtain ⟨-, -, value, hvalue⟩ := isTracked_iff.mp htracked₁
    have hlt : i < object₁.argv.length := (List.getElem?_eq_some_iff.mp hvalue).1
    have hname' : (object₁.setProperty (.index i) (some new)).getFormalParameter i = some name := hname
    obtain ⟨object', hupdate, hproperties, hargv, hkept, hwritten⟩ :
        ∃ object', updateMap (object₁.setProperty (.index i) (some new)) i desc = some object' ∧
          object'.properties (.index i) = some new ∧ object'.argv[i]? = slotAfter true desc object₁.argv[i]? ∧
          (desc.value = none → object'.lexEnv = object₁.lexEnv) ∧
          ∀ value, desc.value = some value → object'.lexEnv = Function.update object₁.lexEnv name value :=
      ⟨_, updateMap_eq hname' desc, object₁.setProperty_self _ _, updateMap_argv hlt desc,
        updateMap_lexEnv hname' (updateMap_eq hname' desc)⟩
    refine ⟨object', ?_, ?_, fun _ => ⟨?_, ?_⟩, fun hne => absurd rfl hne⟩
    · rw [defineOwnProperty_tracked hgeneral (fun h => by cases h) htracked₁, hupdate]
      rfl
    · refine hinv.step (hsame.trans (updateMap_sameBut hname' hupdate)) (Or.inr ⟨.defined (.index i) desc, rfl, rfl⟩) ?_
      rw [Fits, hproperties, hargv]
      rwa [htracked₁] at hfits
    · intro j name' value hj hmaps hdefined
      obtain rfl := Key.index.inj hj
      have heq : name = name' := Option.some.inj (hlast.1.symm.trans hmaps.last.1)
      rw [hwritten value hdefined, hlooks.lexEnv, heq]
    · intro hothers
      cases hdefined : desc.value with
      | none => rw [hkept hdefined, hlooks.lexEnv]
      | some value =>
        have hactual := hallowed htracked (by rw [hdefined]; rfl)
        rw [hinv.argumentsNumber] at hactual
        rw [hothers i name rfl ((hinv.tracked_iff hactual hlast).mp htracked)] at hdefined
        cases hdefined

/-- The definition of an index, if it is rejected. -/
theorem define_index_rejected {found : Option (Property V)} {object₁ : ArgumentsObject V Name}
    (hinv : Inv engine call past object) (hlooks : LooksUp engine call past (.index i) object object₁ found)
    (hfixed : ∀ p, found = some p → p.configurable = false)
    (hgeneral : generalDefineOwnProperty engine object (.index i) desc = some (reject desc.shouldThrow, object₁))
    (hallowed : object.isTracked i = true → desc.shouldThrow = true ∨ desc.changesMap = false) :
    Defines engine call past (.index i) desc object object₁ (reject desc.shouldThrow) := by
  refine hlooks.defines hinv hfixed ?_
  cases htracked : object.isTracked i with
  | false => exact defineOwnProperty_stop hgeneral (Or.inr ((hlooks.tracked i).trans htracked))
  | true =>
    cases hthrow : desc.shouldThrow with
    | true =>
      rw [hthrow] at hgeneral
      exact defineOwnProperty_stop hgeneral (Or.inl rfl)
    | false =>
      have htracked₁ := (hlooks.tracked i).trans htracked
      have hchanges : desc.changesMap = false := (hallowed htracked).resolve_left (by rw [hthrow]; exact Bool.false_ne_true)
      rw [Descriptor.changesMap, Bool.or_eq_false_iff, Option.isSome_eq_false_iff, Option.isNone_iff_eq_none] at hchanges
      obtain ⟨name, hname, -⟩ := (hinv.step hlooks.same (Or.inl rfl) hlooks.fits).tracked_name htracked₁
      rw [hthrow] at hgeneral
      rw [defineOwnProperty_tracked hgeneral nofun htracked₁, updateMap_eq hname, hchanges.1, hchanges.2,
        if_neg Bool.false_ne_true]
      rfl

/-- An allowed definition follows the parameter map. -/
theorem define (hinv : Inv engine call past object) (key : Key Name) (desc : Descriptor V)
    (hallowed : (Operation.define key desc).Allowed engine object) :
    ∃ result object', Defines engine call past key desc object object' result := by
  by_cases hkey : ∀ i, key ≠ .index i
  · exact define_named hinv hkey desc
  · obtain ⟨i, hindex⟩ := not_forall_not.mp hkey
    subst hindex
    obtain ⟨found, object₁, hlooks, ⟨haccepts, new, hreplaces, hgeneral⟩ | ⟨hrejects, hfixed, hgeneral⟩⟩ :=
      generalDefine hinv (.index i) desc
    · rw [Operation.Allowed, haccepts, if_neg Bool.false_ne_true] at hallowed
      obtain ⟨object', hdefines⟩ := define_index_accepted hinv hlooks hreplaces hgeneral hallowed
      exact ⟨.isTrue, object', hdefines⟩
    · rw [Operation.Allowed, if_pos hrejects] at hallowed
      exact ⟨_, object₁, define_index_rejected hinv hlooks hfixed hgeneral hallowed⟩

/-! ## Deletions -/

/-- What a deletion does. -/
structure Deletes (engine : Engine V) (call : Call V Name) (past : List (Event V Name)) (key : Key Name) (isThrow : Bool)
    (object object' : ArgumentsObject V Name) (result : Completion) : Prop where
  runs : deleteProperty engine object key isThrow = some (result, object')
  inv : Inv engine call (if result = .isTrue then .deleted key :: past else past) object'
  lexEnv : object'.lexEnv = object.lexEnv

omit [DecidableEq V] [DecidableEq Name] in
/-- An index whose property is not in the list any more, and cannot be instantiated. -/
theorem IndexFits.delete {slot slot' : Option (Slot V)} {found : Option (Property V)}
    (hfits : IndexFits engine call past i slot found) (hslot : i < call.argList.length → slot' = some .empty)
    (hshadowed : slot = some .empty → slot' = some .empty) :
    IndexFits engine call (.deleted (.index i) :: past) i slot' none where
  present hactual h := by
    rw [hslot hactual] at h
    cases h
  owned := by
    refine iff_of_false ?_ fun h => h.1 rfl
    rintro (h | ⟨hactual, hne⟩)
    · cases h
    · exact hne (hslot hactual)
  shadowed hmapped hformal hnot := hshadowed (hfits.shadowed hmapped hformal hnot)
  kept _ hactual _ _ := by
    refine iff_of_false ?_ fun h => h (Or.inl rfl)
    rintro ⟨value, hvalue⟩
    rw [hslot hactual] at hvalue
    cases hvalue
  isData _ _ _ _ h := nomatch h
  noTrack h hactual := by
    rw [hslot hactual] at h
    cases h
  builtIn _ h := nomatch h
  plain _ h := nomatch h

/-- The deletion of a built-in property that can be deleted does not run into a failed assertion. -/
theorem deleteBuiltIn {p : Property V} (hinv : Inv engine call past object) (hfound : object.properties key = some p)
    (hbuiltIn : p.builtIn = true) (hconfigurable : p.configurable = true) :
    ∃ object', deleteBuiltInProperty engine (object.setProperty key none) key = some object' ∧
      SameBut key object object' ∧ Fits engine call (.deleted key :: past) object' key ∧ object'.lexEnv = object.lexEnv := by
  have hsame := SameBut.setProperty key object none
  have hfits := hinv.fits key
  cases key with
  | index i =>
    rw [Fits, hfound] at hfits
    obtain ⟨-, hslot⟩ := hfits.builtIn p rfl hbuiltIn
    have hlt : i < object.argv.length := by
      obtain h | h := hslot <;> exact (List.getElem?_eq_some_iff.mp h).1
    refine ⟨(object.setProperty (.index i) none).setSlot i .empty, if_pos hslot, hsame.trans (SameBut.setSlot i _ _), ?_, rfl⟩
    have hempty : ((object.setProperty (.index i) none).setSlot i .empty).argv[i]? = some .empty :=
      List.getElem?_set_self hlt
    have hnone : ((object.setProperty (.index i) none).setSlot i .empty).properties (.index i) = none :=
      object.setProperty_self ..
    rw [Fits, hempty, hnone]
    exact hfits.delete (fun _ => rfl) fun _ => rfl
  | length =>
    have hnot : object.lengthInitialized = false := hfits p hfound hbuiltIn
    refine ⟨{ object.setProperty .length none with lengthInitialized := true }, ?_, ?_, ?_, rfl⟩
    · exact if_neg (Bool.eq_false_iff.mp hnot)
    · exact { hsame with lengthInitialized := fun h => absurd rfl h }
    · intro q hq
      cases hq.symm.trans (object.setProperty_self .length none)
  | callee =>
    obtain ⟨hnot, hmapped | hfixed⟩ := hfits p hfound hbuiltIn
    · refine ⟨{ object.setProperty .callee none with calleeInitialized := true }, ?_, ?_, ?_, rfl⟩
      · refine if_neg ?_
        rw [Bool.or_eq_true, Bool.not_eq_true']
        rintro (h | h)
        · exact absurd (h.symm.trans hnot) (by decide)
        · exact absurd (hmapped.symm.trans h) (by decide)
      · exact { hsame with calleeInitialized := fun h => absurd rfl h }
      · intro q hq
        cases hq.symm.trans (object.setProperty_self .callee none)
    · cases hconfigurable.symm.trans hfixed
  | iterator =>
    have hnot : object.iteratorInitialized = false := hfits p hfound hbuiltIn
    refine ⟨{ object.setProperty .iterator none with iteratorInitialized := true }, ?_, ?_, ?_, rfl⟩
    · exact if_neg (Bool.eq_false_iff.mp hnot)
    · exact { hsame with iteratorInitialized := fun h => absurd rfl h }
    · intro q hq
      cases hq.symm.trans (object.setProperty_self .iterator none)
  | other name => cases (hfits p hfound).symm.trans hbuiltIn

omit [DecidableEq V] in
/-- The key fits after the deletion of a property that is not built-in. -/
theorem Fits.deletePlain {p : Property V} (hfits : Fits engine call past object key) (hfound : object.properties key = some p)
    (hplain : p.builtIn = false) : Fits engine call (.deleted key :: past) (object.setProperty key none) key := by
  have hnone := object.setProperty_self key none
  cases key with
  | index i =>
    rw [Fits, hfound] at hfits
    rw [Fits, hnone]
    exact hfits.delete (hfits.plain p rfl hplain) id
  | length | callee | iterator | other name =>
    intro q hq
    rw [hnone] at hq
    cases hq

omit [DecidableEq V] in
/-- A key without a property fits after its deletion. -/
theorem LooksUp.deleteMissing (hlooks : LooksUp engine call past key object object' none) :
    Fits engine call (.deleted key :: past) object' key := by
  have hfits := hlooks.fits
  have hnone := hlooks.properties
  cases key with
  | index i =>
    rw [Fits, hnone] at hfits ⊢
    refine hfits.delete (fun hactual => ?_) id
    exact Classical.not_not.mp fun hne => hlooks.missing i rfl rfl (hfits.owned.mp (Or.inr ⟨hactual, hne⟩))
  | length | callee | iterator | other name =>
    intro q hq
    rw [hnone] at hq
    cases hq

/-- The deletion of a property that is found. -/
theorem deleteProperty_found {p : Property V} (hruns : getOwnProperty engine object key = some (some p, object'))
    (isThrow : Bool) : deleteProperty engine object key isThrow =
      if p.configurable = false then some (reject isThrow, object')
      else if p.builtIn = true then
        (deleteBuiltInProperty engine (object'.setProperty key none) key).map (Completion.isTrue, ·)
      else some (.isTrue, object'.setProperty key none) := by
  simp only [deleteProperty, hruns, Option.bind_eq_bind, Option.bind_some, Option.map_eq_bind]
  rfl

/-- A deletion does not run into a failed assertion, and keeps the invariant. -/
theorem delete (hinv : Inv engine call past object) (key : Key Name) (isThrow : Bool) :
    ∃ result object', Deletes engine call past key isThrow object object' result := by
  obtain ⟨object₁, found, hlooks⟩ := lookUp hinv key
  have hinv₁ : Inv engine call past object₁ := hinv.step hlooks.same (Or.inl rfl) hlooks.fits
  cases found with
  | none =>
    refine ⟨.isTrue, object₁, ?_, ?_, hlooks.lexEnv⟩
    · rw [deleteProperty, hlooks.runs]
      rfl
    · exact hinv.step hlooks.same (Or.inr ⟨.deleted key, rfl, rfl⟩) hlooks.deleteMissing
  | some p =>
    have hruns := deleteProperty_found hlooks.runs isThrow
    cases hconfigurable : p.configurable with
    | false =>
      refine ⟨reject isThrow, object₁, hruns.trans (if_pos hconfigurable), ?_, hlooks.lexEnv⟩
      rw [if_neg (reject_ne_isTrue _)]
      exact hinv₁
    | true =>
      have hremoves := hruns.trans (if_neg (by rw [hconfigurable]; decide))
      cases hbuiltIn : p.builtIn with
      | false =>
        refine ⟨.isTrue, object₁.setProperty key none, hremoves.trans (if_neg (by rw [hbuiltIn]; decide)), ?_, hlooks.lexEnv⟩
        exact hinv.step (hlooks.same.trans (SameBut.setProperty key object₁ none)) (Or.inr ⟨.deleted key, rfl, rfl⟩)
          (hlooks.fits.deletePlain hlooks.properties hbuiltIn)
      | true =>
        obtain ⟨object', hdelete, hsame, hfits, hlexEnv⟩ := deleteBuiltIn hinv₁ hlooks.properties hbuiltIn hconfigurable
        refine ⟨.isTrue, object', hremoves.trans ((if_pos hbuiltIn).trans ?_), ?_, hlexEnv.trans hlooks.lexEnv⟩
        · rw [hdelete, Option.map_some]
        · exact hinv.step (hlooks.same.trans hsame) (Or.inr ⟨.deleted key, rfl, rfl⟩) hfits

end Arguments
end JJS
