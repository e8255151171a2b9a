import JJS.Pmap.Basic

/-!
# JJS.Pmap.Resolve

The package that a specifier is resolved under. `find_nearest_package_path` goes from slash to slash towards the front, so
it finds the longest name before a slash that is a key (`findNearestLoop_spec`). Validation asks for the strings that
`get_path_type` finds (`validated_path`), but only in the entries whose names are enumerable and valid, and resolution
looks any name up: an entry that was skipped is used as well, also for a specifier that is a file name.
-/

namespace JJS
namespace Pmap

open Utf8 (Byte CodeUnit cesu8)

/-! ## The last slash -/

section LastIndex

variable {string : List CodeUnit} {search : CodeUnit} {position index : Nat}

/-- The last place up to a position with a code unit. -/
def IsLast (string : List CodeUnit) (search : CodeUnit) (position index : Nat) : Prop :=
  index ≤ position ∧ string[index]? = some search ∧ ∀ j, index < j → j ≤ position → string[j]? ≠ some search

theorem findLastIndexLoop_some (h : findLastIndexLoop string search position = some index) :
    IsLast string search position index := by
  induction position with
  | zero =>
    rw [findLastIndexLoop] at h
    split at h
    case isTrue hfound =>
      obtain rfl := Option.some.inj h
      exact ⟨Nat.le_refl 0, hfound, fun j hlt hle => by omega⟩
    case isFalse => cases h
  | succ position ih =>
    rw [findLastIndexLoop] at h
    split at h
    case isTrue hfound =>
      obtain rfl := Option.some.inj h
      exact ⟨Nat.le_refl _, hfound, fun j hlt hle => by omega⟩
    case isFalse hnot =>
      obtain ⟨hle, hfound, hlast⟩ := ih h
      refine ⟨Nat.le_succ_of_le hle, hfound, fun j hlt hj => ?_⟩
      rcases Nat.lt_or_eq_of_le hj with hj | rfl
      · exact hlast j hlt (Nat.le_of_lt_succ hj)
      · exact hnot

theorem findLastIndexLoop_none (h : findLastIndexLoop string search position = none) :
    ∀ j ≤ position, string[j]? ≠ some search := by
  induction position with
  | zero =>
    rw [findLastIndexLoop] at h
    split at h
    case isTrue => cases h
    case isFalse hnot =>
      intro j hj
      obtain rfl := Nat.le_zero.mp hj
      exact hnot
  | succ position ih =>
    rw [findLastIndexLoop] at h
    split at h
    case isTrue => cases h
    case isFalse hnot =>
      intro j hj
      rcases Nat.lt_or_eq_of_le hj with hj | rfl
      · exact ih h j (Nat.le_of_lt_succ hj)
      · exact hnot

/-- Where the search begins makes no difference behind the end of the string. -/
theorem inside_start {j : Nat} (hfound : string[j]? = some search) (hj : j ≤ position) :
    j ≤ if min position string.length + 1 > string.length then min position string.length - 1
      else min position string.length := by
  have hlt : j < string.length := (List.getElem?_eq_some_iff.mp hfound).1
  split <;> omega

theorem findLastIndex_some (h : findLastIndex string search (min position string.length) = some index) :
    IsLast string search position index := by
  rw [findLastIndex] at h
  split at h
  case isTrue => cases h
  case isFalse =>
    obtain ⟨hle, hfound, hlast⟩ := findLastIndexLoop_some h
    refine ⟨?_, hfound, fun j hlt hj hj' => hlast j hlt (inside_start hj' hj) hj'⟩
    split at hle <;> omega

theorem findLastIndex_none (h : findLastIndex string search (min position string.length) = none) :
    ∀ j ≤ position, string[j]? ≠ some search := by
  rw [findLastIndex] at h
  split at h
  case isTrue hempty =>
    intro j _ hfound
    have hlt := (List.getElem?_eq_some_iff.mp hfound).1
    omega
  case isFalse => exact fun j hj hfound => findLastIndexLoop_none h j (inside_start hfound hj) hfound

/-- Every slash up to a position has an index that is a small integer. -/
def SmallUpTo (string : List CodeUnit) (position : Nat) : Prop :=
  ∀ j ≤ position, string[j]? = some slash → j ≤ ecmaIntegerNumberMax

theorem lastIndexOf_some (h : lastIndexOf string slash position = some index) :
    IsLast string slash position index ∧ SmallUpTo string position := by
  rw [lastIndexOf, Option.filter_eq_some_iff] at h
  obtain ⟨hfound, hsmall⟩ := h
  have hlast := findLastIndex_some hfound
  refine ⟨hlast, fun j hj hslash => ?_⟩
  have hle : j ≤ index := Nat.le_of_not_lt fun hlt => hlast.2.2 j hlt hj hslash
  exact Nat.le_trans hle (of_decide_eq_true hsmall)

theorem lastIndexOf_none (h : lastIndexOf string slash position = none) :
    ¬ (SmallUpTo string position ∧ ∃ j ≤ position, string[j]? = some slash) := by
  rintro ⟨hsmall, j, hj, hslash⟩
  rw [lastIndexOf] at h
  cases hfound : findLastIndex string slash (min position string.length) with
  | none => exact findLastIndex_none hfound j hj hslash
  | some index =>
    obtain ⟨hle, hindex, -⟩ := findLastIndex_some hfound
    rw [hfound, Option.filter_some, if_pos (decide_eq_true (hsmall index hle hindex))] at h
    cases h

end LastIndex

/-! ## The nearest package -/

theorem substr_take (string : List CodeUnit) (index : Nat) : substr string 0 index = string.take index := by
  rw [substr]
  split
  case isTrue h => rw [Nat.le_zero.mp h, List.take_zero]
  case isFalse => rw [List.drop_zero, Nat.sub_zero]

theorem substr_drop (string : List CodeUnit) (index : Nat) : substr string index string.length = string.drop index := by
  rw [substr]
  split
  case isTrue h => rw [List.drop_eq_nil_of_le h]
  case isFalse => rw [List.take_of_length_le (by rw [List.length_drop])]

section Nearest

variable {platform : Platform} {packages : Value} {root specifier : List CodeUnit} {moduleType : ModuleType}

/-- A name before a slash of the specifier, up to a position, with its entry, and no longer one is a key. -/
structure Nearest (packages : Value) (specifier : List CodeUnit) (position index : Nat) (packageInfo : Value) : Prop where
  le : index ≤ position
  isSlash : specifier[index]? = some slash
  entry : ecmaFindOwn packages (specifier.take index) = some packageInfo
  longest : ∀ j, index < j → j ≤ position → specifier[j]? = some slash → ecmaFindOwn packages (specifier.take j) = none

section Last

variable {position last index : Nat} {info packageInfo : Value}

/-- The nearest package is not behind the last slash. -/
theorem Nearest.le_last (hnearest : Nearest packages specifier position index info)
    (hlast : IsLast specifier slash position last) : index ≤ last := by
  by_contra hbehind
  exact hlast.2.2 index (Nat.not_le.mp hbehind) hnearest.le hnearest.isSlash

/-- If there is an entry for the name before the last slash, it is the nearest package. -/
theorem nearest_last_iff (hlast : IsLast specifier slash position last)
    (hentry : ecmaFindOwn packages (specifier.take last) = some packageInfo) :
    Nearest packages specifier position index info ↔ index = last ∧ info = packageInfo := by
  constructor
  · intro hnearest
    have hindex : index = last := by
      refine Nat.le_antisymm (hnearest.le_last hlast) (Nat.le_of_not_lt fun hlt => ?_)
      have hnone := hnearest.longest last hlt hlast.1 hlast.2.1
      rw [hentry] at hnone
      cases hnone
    have hinfo := hnearest.entry
    rw [hindex, hentry] at hinfo
    exact ⟨hindex, (Option.some.inj hinfo).symm⟩
  · rintro ⟨rfl, rfl⟩
    exact ⟨hlast.1, hlast.2.1, hentry, fun j hlt hj hslash => absurd hslash (hlast.2.2 j hlt hj)⟩

/-- Without an entry for the name before the last slash, the nearest package is further to the front. -/
theorem Nearest.lt_last (hnearest : Nearest packages specifier position index info)
    (hlast : IsLast specifier slash position last) (hnone : ecmaFindOwn packages (specifier.take last) = none) :
    index < last := by
  refine Nat.lt_of_le_of_ne (hnearest.le_last hlast) fun heq => ?_
  have hinfo := hnearest.entry
  rw [heq, hnone] at hinfo
  cases hinfo

theorem nearest_before_iff (hlast : IsLast specifier slash position last)
    (hnone : ecmaFindOwn packages (specifier.take last) = none) (hpos : 0 < last) :
    Nearest packages specifier (last - 1) index info ↔ Nearest packages specifier position index info := by
  constructor
  · intro hnearest
    have hle := hnearest.le
    have hposition := hlast.1
    refine ⟨by omega, hnearest.isSlash, hnearest.entry, fun j hlt hj hslash => ?_⟩
    rcases Nat.lt_trichotomy j last with hbefore | rfl | hbehind
    · exact hnearest.longest j hlt (by omega) hslash
    · exact hnone
    · exact absurd hslash (hlast.2.2 j hbehind hj)
  · intro hnearest
    have hlt := hnearest.lt_last hlast hnone
    have hposition := hlast.1
    exact ⟨by omega, hnearest.isSlash, hnearest.entry, fun j hlt hj => hnearest.longest j hlt (by omega)⟩

end Last

/-- The loop ends with the nearest package. -/
theorem findNearestLoop_spec (rounds position : Nat) (hrounds : position < rounds) :
    ∃ result, findNearestLoop platform packages root specifier moduleType rounds position = some result ∧
      ∀ path, result = some path ↔ SmallUpTo specifier position ∧ ∃ index packageInfo,
        Nearest packages specifier position index packageInfo ∧
          packagePath platform root specifier moduleType packageInfo index = some path := by
  induction rounds generalizing position with
  | zero => exact absurd hrounds (Nat.not_lt_zero _)
  | succ rounds ih =>
    rw [findNearestLoop]
    cases hfound : lastIndexOf specifier slash position with
    | none =>
      refine ⟨none, rfl, fun path => ⟨fun h => (by cases h), ?_⟩⟩
      rintro ⟨hsmall, index, packageInfo, hnearest, -⟩
      exact absurd ⟨hsmall, index, hnearest.le, hnearest.isSlash⟩ (lastIndexOf_none hfound)
    | some last =>
      obtain ⟨hlast, hsmall⟩ := lastIndexOf_some hfound
      dsimp only
      rw [substr_take]
      cases hentry : ecmaFindOwn packages (specifier.take last) with
      | some packageInfo =>
        refine ⟨_, rfl, fun path => ?_⟩
        constructor
        · exact fun h => ⟨hsmall, last, packageInfo, (nearest_last_iff hlast hentry).mpr ⟨rfl, rfl⟩, h⟩
        · rintro ⟨-, index, info, hnearest, hpath⟩
          obtain ⟨rfl, rfl⟩ := (nearest_last_iff hlast hentry).mp hnearest
          exact hpath
      | none =>
        dsimp only
        by_cases hpos : 0 < last
        · rw [if_pos hpos]
          have hposition := hlast.1
          obtain ⟨result, hresult, hiff⟩ := ih (last - 1) (by omega)
          refine ⟨result, hresult, fun path => ?_⟩
          rw [hiff]
          simp only [nearest_before_iff hlast hentry hpos]
          constructor
          · rintro ⟨-, hnearest⟩
            exact ⟨hsmall, hnearest⟩
          · rintro ⟨-, hnearest⟩
            exact ⟨fun j hj => hsmall j (by omega), hnearest⟩
        · rw [if_neg hpos]
          refine ⟨none, rfl, fun path => ⟨fun h => (by cases h), ?_⟩⟩
          rintro ⟨-, index, info, hnearest, -⟩
          have hlt := hnearest.lt_last hlast hentry
          omega

end Nearest

/-! ## The package of a specifier -/

/-- The name that a specifier is looked up under: the whole specifier if that is a key, otherwise the longest part before
a slash that is one, with the rest behind the slash. -/
inductive LookedUp (packages : Value) (specifier : List CodeUnit) : List CodeUnit → Option (List CodeUnit) → Prop where
  | whole : ecmaHasOwn packages specifier = true → LookedUp packages specifier specifier none
  | before {name rest : List CodeUnit} : ecmaHasOwn packages specifier = false → specifier = name ++ slash :: rest →
      ecmaHasOwn packages name = true →
      (∀ name' rest', specifier = name' ++ slash :: rest' → name.length < name'.length →
        ecmaHasOwn packages name' = false) → LookedUp packages specifier name (some rest)

/-- The path before it is made a real one. -/
def joinedPath (root v : List CodeUnit) : Option (List CodeUnit) → List CodeUnit
  | none => root ++ [slash] ++ v
  | some rest => root ++ [slash] ++ v ++ [slash] ++ rest

/-- A package is used for its main module, or for what is in its directory. -/
def pathTypeOf : Option (List CodeUnit) → List CodeUnit
  | none => litMagicStringMain
  | some _ => litMagicStringPath

section LookUp

variable {platform : Platform} {packages : Value} {root specifier name : List CodeUnit} {rest : Option (List CodeUnit)}
  {moduleType : ModuleType}

theorem ecmaHasOwn_eq_false {key : List CodeUnit} : ecmaHasOwn packages key = false ↔ ecmaFindOwn packages key = none := by
  rw [ecmaHasOwn]
  cases ecmaFindOwn packages key <;> simp

theorem ecmaHasOwn_of_find {key : List CodeUnit} {value : Value} (h : ecmaFindOwn packages key = some value) :
    ecmaHasOwn packages key = true := by
  rw [ecmaHasOwn, h]
  rfl

theorem split_at_slash {index : Nat} (h : specifier[index]? = some slash) :
    specifier = specifier.take index ++ slash :: specifier.drop (index + 1) := by
  obtain ⟨hlt, hget⟩ := List.getElem?_eq_some_iff.mp h
  rw [← hget, List.getElem_cons_drop, List.take_append_drop]

theorem slash_at_split {before after : List CodeUnit} (h : specifier = before ++ slash :: after) :
    specifier[before.length]? = some slash ∧ specifier.take before.length = before ∧
      specifier.drop (before.length + 1) = after ∧ before.length ≤ specifier.length := by
  subst h
  refine ⟨?_, List.take_left, ?_, ?_⟩
  · rw [List.getElem?_append_right (Nat.le_refl _), Nat.sub_self]
    rfl
  · rw [← List.drop_drop, List.drop_left]
    rfl
  · rw [List.length_append]
    exact Nat.le_add_right _ _

/-- What the loop finds is what the specifier is looked up under. -/
theorem lookedUp_before_iff (hwhole : ecmaFindOwn packages specifier = none) {packageInfo : Value} :
    (∃ rest, LookedUp packages specifier name (some rest) ∧ ecmaFindOwn packages name = some packageInfo) ↔
      ∃ index, Nearest packages specifier specifier.length index packageInfo ∧ specifier.take index = name := by
  constructor
  · rintro ⟨rest, hlooked, hentry⟩
    cases hlooked with
    | before _ hsplit hkey hlongest =>
      obtain ⟨hslash, htake, hdrop, hle⟩ := slash_at_split hsplit
      refine ⟨name.length, ⟨hle, hslash, by rw [htake]; exact hentry, ?_⟩, htake⟩
      intro j hlt _ hj
      have hjlt : j < specifier.length := (List.getElem?_eq_some_iff.mp hj).1
      refine ecmaHasOwn_eq_false.mp (hlongest _ _ (split_at_slash hj) ?_)
      rw [List.length_take]
      omega
  · rintro ⟨index, hnearest, rfl⟩
    refine ⟨specifier.drop (index + 1), .before (ecmaHasOwn_eq_false.mpr hwhole) (split_at_slash hnearest.isSlash)
      (ecmaHasOwn_of_find hnearest.entry) ?_, hnearest.entry⟩
    intro name' rest' hsplit hlonger
    obtain ⟨hslash, htake, -, hle⟩ := slash_at_split hsplit
    have hindex : index < specifier.length := (List.getElem?_eq_some_iff.mp hnearest.isSlash).1
    rw [List.length_take] at hlonger
    rw [← htake]
    exact ecmaHasOwn_eq_false.mpr (hnearest.longest _ (by omega) hle hslash)

theorem LookedUp.split {rest : List CodeUnit} (h : LookedUp packages specifier name (some rest)) :
    specifier = name ++ slash :: rest := by
  cases h with
  | before _ hsplit => exact hsplit

/-- A specifier is looked up under one name. -/
theorem LookedUp.unique {name' : List CodeUnit} {rest' : Option (List CodeUnit)}
    (h : LookedUp packages specifier name rest) (h' : LookedUp packages specifier name' rest') :
    name' = name ∧ rest' = rest := by
  cases h with
  | whole hwhole =>
    cases h' with
    | whole => exact ⟨rfl, rfl⟩
    | before hnot => exact absurd hwhole (by rw [hnot]; exact Bool.false_ne_true)
  | before hnot hsplit hkey hlongest =>
    cases h' with
    | whole hwhole => exact absurd hwhole (by rw [hnot]; exact Bool.false_ne_true)
    | before _ hsplit' hkey' hlongest' =>
      have hlength : name'.length = name.length := by
        rcases Nat.lt_trichotomy name'.length name.length with hlt | heq | hgt
        · have hfalse := hlongest' _ _ hsplit hlt
          rw [hkey] at hfalse
          cases hfalse
        · exact heq
        · have hfalse := hlongest _ _ hsplit' hgt
          rw [hkey'] at hfalse
          cases hfalse
      obtain ⟨-, htake, hdrop, -⟩ := slash_at_split hsplit
      obtain ⟨-, htake', hdrop', -⟩ := slash_at_split hsplit'
      rw [hlength] at htake' hdrop'
      exact ⟨htake'.symm.trans htake, by rw [← hdrop', hdrop]⟩

theorem toOption_eq_some {path : List CodeUnit} {result : Except String (List CodeUnit)} :
    result.toOption = some path ↔ result = .ok path := by
  cases result <;> simp [Except.toOption]

/-- A joined path is never empty. -/
theorem annexPathJoin_normalize (referrer specifier : List CodeUnit) :
    annexPathJoin platform referrer specifier true = (platform.realpath (referrer ++ [slash] ++ specifier)).toOption := by
  rw [annexPathJoin, if_pos rfl, annexPathNormalize, if_neg]
  rw [List.length_append, List.length_append, List.length_singleton]
  omega

theorem packagePath_eq_some {packageInfo : Value} {index : Nat} {path : List CodeUnit} :
    packagePath platform root specifier moduleType packageInfo index = some path ↔
      ∃ v, getPathType litMagicStringPath moduleType packageInfo = some v ∧
        platform.realpath (joinedPath root v (some (specifier.drop (index + 1)))) = .ok path := by
  rw [packagePath, substr_drop]
  cases getPathType litMagicStringPath moduleType packageInfo with
  | none => simp
  | some v =>
    show annexPathJoin platform (root ++ [slash] ++ v) _ true = some path ↔ _
    rw [annexPathJoin_normalize, toOption_eq_some]
    constructor
    · exact fun h => ⟨v, rfl, h⟩
    · rintro ⟨v', hv, h⟩
      obtain rfl := Option.some.inj hv
      exact h

theorem pathOrThrow_eq_ok {message : String} {path : List CodeUnit} {found : Option (List CodeUnit)} :
    pathOrThrow message found = .ok path ↔ found = some path := by
  cases found <;> simp [pathOrThrow]

/-- Every slash of the specifier has an index that is a small integer, if the specifier is split at one. -/
def SplitSmall (specifier : List CodeUnit) (rest : Option (List CodeUnit)) : Prop :=
  rest.isSome = true → SmallUpTo specifier specifier.length

end LookUp

namespace Context

/-- The packages of the package map. -/
def packages (context : Context) : Value := (ecmaFindOwn context.pmap litMagicStringPackages).getD .other

/-- The root of the package map. -/
def root (context : Context) : List CodeUnit :=
  match context.pmapRoot with
  | .string root => root
  | _ => []

/-- The package map and its root are set. -/
structure Ready (context : Context) (root : List CodeUnit) : Prop where
  pmap : isObject context.pmap = true
  pmapRoot : context.pmapRoot = .string root

end Context

/-- A context that is ready has an object as its package map. -/
theorem Context.Ready.exists_pmap {context : Context} {root : List CodeUnit} (hready : context.Ready root) :
    ∃ isArray properties, context.pmap = .object isArray properties := by
  have hobject := hready.pmap
  cases hpmap : context.pmap with
  | object isArray properties => exact ⟨isArray, properties, rfl⟩
  | string | undefined | other =>
    rw [hpmap] at hobject
    cases hobject

theorem jjsAnnexPmapResolve_none {platform : Platform} {context : Context} {root specifier : List CodeUnit}
    (hready : context.Ready root) (hwhole : ecmaFindOwn context.packages specifier = none) (moduleType : ModuleType) :
    jjsAnnexPmapResolve platform context (.string specifier) moduleType =
      (findNearestPackagePath platform context.packages root specifier moduleType).map
        (pathOrThrow "package not found") := by
  obtain ⟨isArray, properties, hpmap⟩ := hready.exists_pmap
  rw [Context.packages, hpmap] at hwhole ⊢
  simp only [jjsAnnexPmapResolve, hpmap, hready.pmapRoot, hwhole]

theorem jjsAnnexPmapResolve_some {platform : Platform} {context : Context} {root specifier : List CodeUnit}
    {packageInfo : Value} (hready : context.Ready root)
    (hwhole : ecmaFindOwn context.packages specifier = some packageInfo) (moduleType : ModuleType) :
    jjsAnnexPmapResolve platform context (.string specifier) moduleType =
      some (pathOrThrow "failed to resolve specifier"
        ((getPathType litMagicStringMain moduleType packageInfo).bind fun file =>
          annexPathJoin platform root file true)) := by
  obtain ⟨isArray, properties, hpmap⟩ := hready.exists_pmap
  rw [Context.packages, hpmap] at hwhole
  simp only [jjsAnnexPmapResolve, hpmap, hready.pmapRoot, hwhole]

/-- `jjs_annex_pmap_resolve` ends, and it gives a path if and only if there is an entry with a string for it, and its
joined path has a real path. -/
theorem jjsAnnexPmapResolve_spec {platform : Platform} {context : Context} {root : List CodeUnit}
    (hready : context.Ready root) (specifier : List CodeUnit) (moduleType : ModuleType) :
    ∃ result, jjsAnnexPmapResolve platform context (.string specifier) moduleType = some result ∧
      ∀ path, result = .ok path ↔ ∃ name rest packageInfo v, LookedUp context.packages specifier name rest ∧
        ecmaFindOwn context.packages name = some packageInfo ∧
        getPathType (pathTypeOf rest) moduleType packageInfo = some v ∧ SplitSmall specifier rest ∧
        platform.realpath (joinedPath root v rest) = .ok path := by
  cases hwhole : ecmaFindOwn context.packages specifier with
  | none =>
    obtain ⟨result, hresult, hiff⟩ := @findNearestLoop_spec platform context.packages root specifier moduleType
      (specifier.length + 1) specifier.length (Nat.lt_succ_self _)
    refine ⟨pathOrThrow "package not found" result, ?_, fun path => ?_⟩
    · rw [jjsAnnexPmapResolve_none hready hwhole moduleType, findNearestPackagePath, hresult, Option.map_some]
    · rw [pathOrThrow_eq_ok, hiff]
      constructor
      · rintro ⟨hsmall, index, packageInfo, hnearest, hpath⟩
        obtain ⟨v, hv, hreal⟩ := packagePath_eq_some.mp hpath
        obtain ⟨rest, hlooked, hentry⟩ := (lookedUp_before_iff hwhole).mpr ⟨index, hnearest, rfl⟩
        have hrest : specifier.drop (index + 1) = rest := by
          obtain ⟨-, -, hdrop, -⟩ := slash_at_split hlooked.split
          have hlt : index < specifier.length := (List.getElem?_eq_some_iff.mp hnearest.isSlash).1
          rwa [List.length_take, Nat.min_eq_left (Nat.le_of_lt hlt)] at hdrop
        rw [hrest] at hreal
        exact ⟨_, _, _, _, hlooked, hentry, hv, fun _ => hsmall, hreal⟩
      · rintro ⟨name, rest, packageInfo, v, hlooked, hentry, hv, hsmall, hreal⟩
        cases hlooked with
        | whole hkey =>
          rw [hwhole] at hentry
          cases hentry
        | @before name rest hnot hsplit hkey hlongest =>
          obtain ⟨index, hnearest, htake⟩ :=
            (lookedUp_before_iff hwhole).mp ⟨rest, .before hnot hsplit hkey hlongest, hentry⟩
          have hlt : index < specifier.length := (List.getElem?_eq_some_iff.mp hnearest.isSlash).1
          obtain ⟨-, -, hdrop, -⟩ := slash_at_split hsplit
          rw [← htake, List.length_take, Nat.min_eq_left (Nat.le_of_lt hlt)] at hdrop
          refine ⟨hsmall rfl, index, packageInfo, hnearest, packagePath_eq_some.mpr ⟨v, hv, ?_⟩⟩
          rw [hdrop]
          exact hreal
  | some packageInfo =>
    refine ⟨_, jjsAnnexPmapResolve_some hready hwhole moduleType, fun path => ?_⟩
    rw [pathOrThrow_eq_ok]
    constructor
    · intro h
      obtain ⟨v, hv, hjoin⟩ := Option.bind_eq_some_iff.mp h
      rw [annexPathJoin_normalize, toOption_eq_some] at hjoin
      exact ⟨_, _, _, _, .whole (ecmaHasOwn_of_find hwhole), hwhole, hv, (by intro h; cases h), hjoin⟩
    · rintro ⟨name, rest, info, v, hlooked, hentry, hv, -, hreal⟩
      cases hlooked with
      | whole =>
        rw [hwhole] at hentry
        obtain rfl := Option.some.inj hentry
        refine Option.bind_eq_some_iff.mpr ⟨v, hv, ?_⟩
        rw [annexPathJoin_normalize, toOption_eq_some]
        exact hreal
      | before hnot =>
        rw [ecmaHasOwn_of_find hwhole] at hnot
        cases hnot

end Pmap
end JJS
