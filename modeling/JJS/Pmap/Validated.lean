import JJS.Pmap.Resolve

/-!
# JJS.Pmap.Validated

What validation checks, and that resolution uses no other string of an entry that was validated. The names of the entries
are the difference: `validate_pmap` goes over the enumerable names and skips those that are no valid package names, and
`jjs_annex_pmap_resolve` asks for none of this. So a specifier is resolved as it should be if and only if it is no file name
and the entry that it leads to was validated, or it leads to no path (`resolvesByPackage_iff`).
-/

namespace JJS
namespace Pmap

open Utf8 (Byte CodeUnit cesu8)

/-! ## Validation -/

/-- The strings that `validate_package_info` checks, for a main module or a directory, and a module type. -/
inductive CheckedString (packageInfo : Value) (type : List CodeUnit) (moduleType : ModuleType) (v : List CodeUnit) :
    Prop where
  /-- The whole entry is the string. -/
  | short : packageInfo = .string v → CheckedString packageInfo type moduleType v
  /-- The string is a property of the entry. -/
  | own : ecmaFindOwn packageInfo type = some (.string v) → CheckedString packageInfo type moduleType v
  /-- The string is the property for the module type. -/
  | ofModule {key : List CodeUnit} : moduleType.key = some key → ecmaFindOwn packageInfo key = some (.string v) →
      CheckedString packageInfo type moduleType v
  /-- The string is a property of the object for the module type. -/
  | inModule {key : List CodeUnit} {value : Value} : moduleType.key = some key →
      ecmaFindOwn packageInfo key = some value → ecmaFindOwn value type = some (.string v) →
      CheckedString packageInfo type moduleType v

/-- A string of an entry that validation was at. -/
structure ValidatedString (packages : Value) (name type : List CodeUnit) (moduleType : ModuleType) (v : List CodeUnit) :
    Prop where
  isKey : name ∈ jjsObjectKeys packages
  validName : annexUtilIsValidPackageName (.string name) = true
  checked : ∃ packageInfo, ecmaFindOwn packages name = some packageInfo ∧ CheckedString packageInfo type moduleType v

variable {packages packageInfo value : Value} {name type v : List CodeUnit} {moduleType : ModuleType}

theorem startsWithDotSlash_of_expect (h : expectPathLikeString value = .ok ()) : startsWithDotSlash value = true := by
  rw [expectPathLikeString] at h
  split at h
  case isTrue hstarts => exact hstarts
  case isFalse => cases h

theorem validatePathProperty_string {found : Option Value} {message : String}
    (h : validatePathProperty found message = .ok ()) (hfound : found = some (.string v)) :
    startsWithDotSlash (.string v) = true := by
  rw [hfound] at h
  exact startsWithDotSlash_of_expect h

/-- The strings of a main module and of a directory are checked. -/
theorem validatePathOrMain_own (h : validatePathOrMain packageInfo = .ok ())
    (htype : type = litMagicStringMain ∨ type = litMagicStringPath)
    (hfound : ecmaFindOwn packageInfo type = some (.string v)) : startsWithDotSlash (.string v) = true := by
  cases packageInfo with
  | object isArray properties =>
    rw [validatePathOrMain] at h
    split at h
    case isTrue => cases h
    case isFalse =>
      cases hmain : validatePathProperty (ecmaFindOwn (.object isArray properties) litMagicStringMain)
          "pmap package_info main property must be a string" with
      | error message =>
        rw [hmain] at h
        cases h
      | ok =>
        rw [hmain] at h
        rcases htype with rfl | rfl
        · exact validatePathProperty_string hmain hfound
        · exact validatePathProperty_string h hfound
    intro units hstring
    cases hstring
  | string | undefined | other => cases hfound

/-- What the inner call of `get_path_type` finds was checked. -/
theorem inner_path (h : validatePathOrMain value = .ok ()) (htype : type = litMagicStringMain ∨ type = litMagicStringPath)
    (hpath : getPathTypeWith (fun _ => none) type .none value = some v) :
    (value = .string v ∨ ecmaFindOwn value type = some (.string v)) ∧ startsWithDotSlash (.string v) = true := by
  cases value with
  | string units =>
    obtain rfl := Option.some.inj hpath
    exact ⟨.inl rfl, startsWithDotSlash_of_expect h⟩
  | object isArray properties =>
    rw [getPathTypeWith] at hpath
    split at hpath
    case h_1 units hfound =>
      obtain rfl := Option.some.inj hpath
      exact ⟨.inr hfound, validatePathOrMain_own h htype hfound⟩
    case h_2 => cases hpath
  | undefined | other => cases hpath

theorem validateModuleType_found {key : List CodeUnit} {found : Bool} (h : validateModuleType packageInfo key = .ok found)
    (hvalue : ecmaFindOwn packageInfo key = some value) : found = true ∧ validatePathOrMain value = .ok () := by
  rw [validateModuleType, hvalue] at h
  change (validatePathOrMain value).map (fun _ => true) = .ok found at h
  cases hinner : validatePathOrMain value with
  | error message =>
    rw [hinner] at h
    cases h
  | ok =>
    rw [hinner] at h
    exact ⟨(Except.ok.inj h).symm, rfl⟩

theorem validateModuleType_absent {key : List CodeUnit} {found : Bool} (h : validateModuleType packageInfo key = .ok found)
    (hfound : found = false) : ecmaFindOwn packageInfo key = none := by
  cases hvalue : ecmaFindOwn packageInfo key with
  | none => rfl
  | some value =>
    obtain ⟨htrue, -⟩ := validateModuleType_found h hvalue
    rw [hfound] at htrue
    cases htrue

/-- An entry that was accepted: it has values for module types, all checked, and no others, or the others, and none for a
module type. -/
theorem validatePackageInfo_cases (h : validatePackageInfo packageInfo = .ok ()) :
    (∀ key, key = litMagicStringModule ∨ key = litMagicStringCommonjs → ∀ value,
      ecmaFindOwn packageInfo key = some value → validatePathOrMain value = .ok ()) ∧
    (ecmaFindOwn packageInfo litMagicStringMain = none ∧ ecmaFindOwn packageInfo litMagicStringPath = none ∨
      validatePathOrMain packageInfo = .ok () ∧ ecmaFindOwn packageInfo litMagicStringModule = none ∧
        ecmaFindOwn packageInfo litMagicStringCommonjs = none) := by
  rw [validatePackageInfo] at h
  cases hcommonjs : validateModuleType packageInfo litMagicStringCommonjs with
  | error message =>
    rw [hcommonjs] at h
    cases h
  | ok commonjsFound =>
    cases hmodule : validateModuleType packageInfo litMagicStringModule with
    | error message =>
      rw [hcommonjs, hmodule] at h
      cases h
    | ok moduleFound =>
      rw [hcommonjs, hmodule] at h
      refine ⟨?_, ?_⟩
      · rintro key (rfl | rfl) value hvalue
        · exact (validateModuleType_found hmodule hvalue).2
        · exact (validateModuleType_found hcommonjs hvalue).2
      · change (if (commonjsFound || moduleFound) = true then _ else _) = _ at h
        split at h
        case isTrue =>
          split at h
          case isTrue => cases h
          case isFalse hnone =>
            rw [Bool.or_eq_true, not_or, Bool.not_eq_true, Bool.not_eq_true, ecmaHasOwn_eq_false,
              ecmaHasOwn_eq_false] at hnone
            exact .inl ⟨hnone.2, hnone.1⟩
        case isFalse hnone =>
          rw [Bool.or_eq_true, not_or, Bool.not_eq_true, Bool.not_eq_true] at hnone
          exact .inr ⟨h, validateModuleType_absent hmodule hnone.2, validateModuleType_absent hcommonjs hnone.1⟩

/-- What `get_path_type` finds in an entry that was accepted is a string that was checked. -/
theorem validated_path (h : validatePackageInfo packageInfo = .ok ())
    (htype : type = litMagicStringMain ∨ type = litMagicStringPath)
    (hpath : getPathType type moduleType packageInfo = some v) :
    CheckedString packageInfo type moduleType v ∧ startsWithDotSlash (.string v) = true := by
  obtain ⟨hmodules, hothers⟩ := validatePackageInfo_cases h
  have hkeys {key : List CodeUnit} (hkey : moduleType.key = some key) :
      key = litMagicStringModule ∨ key = litMagicStringCommonjs := by
    cases moduleType with
    | none => cases hkey
    | module => exact .inl (Option.some.inj hkey).symm
    | commonjs => exact .inr (Option.some.inj hkey).symm
  cases packageInfo with
  | string units =>
    obtain rfl := Option.some.inj hpath
    refine ⟨.short rfl, ?_⟩
    rcases hothers with ⟨-, -⟩ | ⟨hvalid, -, -⟩
    · exact startsWithDotSlash_of_expect h
    · exact startsWithDotSlash_of_expect hvalid
  | object isArray properties =>
    rw [getPathType, getPathTypeWith] at hpath
    split at hpath
    case h_1 units hfound =>
      obtain rfl := Option.some.inj hpath
      refine ⟨.own hfound, ?_⟩
      rcases hothers with ⟨hmain, hpathNone⟩ | ⟨hvalid, -, -⟩
      · rcases htype with rfl | rfl
        · rw [hmain] at hfound
          cases hfound
        · rw [hpathNone] at hfound
          cases hfound
      · exact validatePathOrMain_own hvalid htype hfound
    case h_2 =>
      split at hpath
      case h_1 key hkey =>
        obtain ⟨inner, hinner, hdeeper⟩ := Option.bind_eq_some_iff.mp hpath
        have hvalid := hmodules key (hkeys hkey) inner hinner
        obtain ⟨hstring | hown, hstarts⟩ := inner_path hvalid htype hdeeper
        · rw [hstring] at hinner
          exact ⟨.ofModule hkey hinner, hstarts⟩
        · exact ⟨.inModule hkey hinner hown, hstarts⟩
      case h_2 => cases hpath
  | undefined | other => cases hpath

theorem validatePackages_valid {keys : List (List CodeUnit)} (h : validatePackages packages keys = .ok ())
    (hname : name ∈ keys) (hvalid : annexUtilIsValidPackageName (.string name) = true) :
    validatePackageInfo ((ecmaFindOwn packages name).getD .other) = .ok () := by
  induction keys with
  | nil => cases hname
  | cons key keys ih =>
    rw [validatePackages] at h
    rcases List.mem_cons.mp hname with rfl | hname
    · rw [if_pos hvalid] at h
      cases hinfo : validatePackageInfo ((ecmaFindOwn packages name).getD .other) with
      | error message =>
        rw [hinfo] at h
        cases h
      | ok => rfl
    · split at h
      case isTrue =>
        cases hinfo : validatePackageInfo ((ecmaFindOwn packages key).getD .other) with
        | error message =>
          rw [hinfo] at h
          cases h
        | ok =>
          rw [hinfo] at h
          exact ih h hname
      case isFalse => exact ih h hname

theorem validatePmap_packages {pmap : Value} (h : validatePmap pmap = .ok ()) :
    isObject pmap = true ∧ ∃ packages, ecmaFindOwn pmap litMagicStringPackages = some packages ∧
      validatePackages packages (jjsObjectKeys packages) = .ok () := by
  rw [validatePmap] at h
  split at h
  case isTrue => cases h
  case isFalse hobject =>
    refine ⟨by simpa using hobject, ?_⟩
    split at h
    case h_1 => cases h
    case h_2 packages hpackages =>
      split at h
      case isTrue => cases h
      case isFalse => exact ⟨packages, hpackages, h⟩

/-- A package map that was accepted has its root, and its packages were validated. -/
theorem jjsPmap_ok {platform : Platform} {pmap root : Value} {context : Context}
    (h : jjsPmap platform pmap root = .ok context) :
    context.Ready context.root ∧ validatePackages context.packages (jjsObjectKeys context.packages) = .ok () := by
  rw [jjsPmap] at h
  cases hvalid : validatePmap pmap with
  | error message =>
    rw [hvalid] at h
    cases h
  | ok =>
    rw [hvalid] at h
    obtain ⟨hobject, packages, hpackages, hchecked⟩ := validatePmap_packages hvalid
    obtain ⟨resolvedRoot, hcontext⟩ : ∃ resolvedRoot, context = ⟨pmap, .string resolvedRoot⟩ := by
      have hend (resolved : Except String (List CodeUnit))
          (hok : (resolved.bind fun resolvedRoot => .ok ⟨pmap, .string resolvedRoot⟩) = Except.ok context) :
          ∃ resolvedRoot, context = ⟨pmap, .string resolvedRoot⟩ := by
        cases resolved with
        | error message => cases hok
        | ok resolvedRoot => exact ⟨resolvedRoot, (Except.ok.inj hok).symm⟩
      cases root with
      | undefined => exact hend _ h
      | string units => exact hend _ h
      | object | other => cases h
    subst hcontext
    have hget : Context.packages ⟨pmap, .string resolvedRoot⟩ = packages := by
      rw [Context.packages, hpackages]
      rfl
    rw [hget]
    exact ⟨⟨hobject, rfl⟩, hchecked⟩

/-! ## The beginning of a path -/

theorem ascii_head {b : Byte} {t : List Byte} (hb : b.toNat < 0x80) (h : cesu8 v = b :: t) :
    ∃ us, v = b.setWidth 16 :: us ∧ cesu8 us = t := by
  cases v with
  | nil => cases h
  | cons u us =>
    have happend : b :: t = (Utf8.unitPoint u).encode ++ cesu8 us := h.symm
    obtain ⟨hencode, hrest⟩ := Utf8.Point.encode_of_ascii hb happend
    have hvalue := (Utf8.unitPoint u).value_encode
    rw [hencode] at hvalue
    refine ⟨us, ?_, hrest⟩
    congr 1
    apply BitVec.eq_of_toNat_eq
    rw [BitVec.toNat_setWidth, Nat.mod_eq_of_lt (by omega)]
    exact hvalue.symm

theorem startsWithDotSlash_units (h : startsWithDotSlash (.string v) = true) : ∃ tail, v = 0x2e#16 :: slash :: tail := by
  rw [startsWithDotSlash] at h
  have hcopy := of_decide_eq_true h
  rw [ecmaStringCopyToBuffer] at hcopy
  obtain ⟨copySize, htake⟩ : ∃ copySize, (cesu8 v).take copySize = [0x2e#8, 0x2f#8] := ⟨_, hcopy⟩
  have hbytes := List.take_append_drop copySize (cesu8 v)
  rw [htake] at hbytes
  obtain ⟨us, rfl, hrest⟩ := ascii_head (by decide) hbytes.symm
  obtain ⟨tail, rfl, -⟩ := ascii_head (by decide) hrest
  exact ⟨tail, rfl⟩

/-! ## Resolution of what was validated -/

/-- The specifier is a relative or an absolute file name. -/
def IsFileName (specifier : List CodeUnit) : Prop :=
  annexPathSpecifierType (.string specifier) = .relative ∨ annexPathSpecifierType (.string specifier) = .absolute

/-- Resolution ends, and a path it gives is the real path of the string that was validated for the longest package, which
begins with `./`, with the rest of the specifier behind it; and the specifier is no file name. -/
def ResolvesByPackage (platform : Platform) (context : Context) (specifier : List CodeUnit) (moduleType : ModuleType) :
    Prop :=
  ∃ result, jjsAnnexPmapResolve platform context (.string specifier) moduleType = some result ∧
    ∀ path, result = .ok path →
      (∃ name rest v tail, LookedUp context.packages specifier name rest ∧
        ValidatedString context.packages name (pathTypeOf rest) moduleType v ∧ v = 0x2e#16 :: slash :: tail ∧
        platform.realpath (joinedPath context.root v rest) = .ok path) ∧
      ¬ IsFileName specifier

/-- When the specifier leads to a path, it is no file name and leads there by an enumerable name that is valid. -/
def LeadsToValidated (platform : Platform) (context : Context) (specifier : List CodeUnit) (moduleType : ModuleType) :
    Prop :=
  ∀ name rest packageInfo v path, LookedUp context.packages specifier name rest →
    ecmaFindOwn context.packages name = some packageInfo →
    getPathType (pathTypeOf rest) moduleType packageInfo = some v → SplitSmall specifier rest →
    platform.realpath (joinedPath context.root v rest) = .ok path →
    name ∈ jjsObjectKeys context.packages ∧ annexUtilIsValidPackageName (.string name) = true ∧ ¬ IsFileName specifier

theorem pathTypeOf_cases (rest : Option (List CodeUnit)) :
    pathTypeOf rest = litMagicStringMain ∨ pathTypeOf rest = litMagicStringPath := by
  cases rest with
  | none => exact .inl rfl
  | some => exact .inr rfl

/-- For every package map that was accepted. -/
theorem resolvesByPackage_iff (platform : Platform) (pmap root : Value) (context : Context)
    (haccepted : jjsPmap platform pmap root = .ok context) (specifier : List CodeUnit) (moduleType : ModuleType) :
    ResolvesByPackage platform context specifier moduleType ↔ LeadsToValidated platform context specifier moduleType := by
  obtain ⟨hready, hvalidated⟩ := jjsPmap_ok haccepted
  obtain ⟨result, hresult, hiff⟩ := @jjsAnnexPmapResolve_spec platform context context.root hready specifier moduleType
  constructor
  · rintro ⟨result', hresult', hpaths⟩ name rest packageInfo v path hlooked hentry hv hsmall hreal
    rw [hresult] at hresult'
    obtain rfl := Option.some.inj hresult'
    obtain ⟨⟨name', rest', v', -, hlooked', hchecked, -⟩, hfile⟩ :=
      hpaths path ((hiff path).mpr ⟨name, rest, packageInfo, v, hlooked, hentry, hv, hsmall, hreal⟩)
    obtain ⟨rfl, rfl⟩ := hlooked.unique hlooked'
    exact ⟨hchecked.isKey, hchecked.validName, hfile⟩
  · intro hleads
    refine ⟨result, hresult, fun path hpath => ?_⟩
    obtain ⟨name, rest, packageInfo, v, hlooked, hentry, hv, hsmall, hreal⟩ := (hiff path).mp hpath
    obtain ⟨hkey, hname, hfile⟩ := hleads name rest packageInfo v path hlooked hentry hv hsmall hreal
    have hinfo := validatePackages_valid hvalidated hkey hname
    rw [hentry] at hinfo
    obtain ⟨hchecked, hstarts⟩ := validated_path hinfo (pathTypeOf_cases rest) hv
    obtain ⟨tail, htail⟩ := startsWithDotSlash_units hstarts
    exact ⟨⟨name, rest, v, tail, hlooked, ⟨hkey, hname, packageInfo, hentry, hchecked⟩, htail, hreal⟩, hfile⟩

/-- A package map with one package. -/
def onePackage (name path : List CodeUnit) : Value :=
  .object false [(litMagicStringPackages, true, .object false [(name, true, .string path)])]

/-- A file system in which every path is a real one. -/
def everyPath : Platform := ⟨.ok, .ok [slash]⟩

/-- A package `a` with the path `./b`, and the specifier `a/c`. -/
theorem resolvesByPackage_iff_directory :
    ResolvesByPackage everyPath ⟨onePackage (ascii ['a']) (ascii ['.', '/', 'b']), .string (ascii ['/', 'r'])⟩
        (ascii ['a', '/', 'c']) .module ↔
      LeadsToValidated everyPath ⟨onePackage (ascii ['a']) (ascii ['.', '/', 'b']), .string (ascii ['/', 'r'])⟩
        (ascii ['a', '/', 'c']) .module :=
  resolvesByPackage_iff everyPath (onePackage (ascii ['a']) (ascii ['.', '/', 'b'])) (.string (ascii ['/', 'r'])) _ rfl _ _

/-- The name `./x` is not valid, so its entry is not checked; the file name `./x` is resolved to it. -/
theorem fileName_resolves : ¬ ∀ (platform : Platform) (pmap root : Value) (context : Context),
    jjsPmap platform pmap root = .ok context → ∀ specifier moduleType,
      ResolvesByPackage platform context specifier moduleType := by
  intro h
  obtain ⟨result, hresult, hpaths⟩ := h everyPath (onePackage (ascii ['.', '/', 'x']) (ascii ['x']))
    (.string (ascii ['/', 'r'])) _ rfl (ascii ['.', '/', 'x']) .module
  have hpath : result = .ok (ascii ['/', 'r', '/', 'x']) := (Option.some.inj hresult).symm
  exact (hpaths _ hpath).2 (.inl rfl)

end Pmap
end JJS
