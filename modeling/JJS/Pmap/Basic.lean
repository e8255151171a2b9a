import JJS.Annex.FileUrl

/-!
# JJS.Pmap.Basic

Package maps (`jjs-annex-pmap.c`, with parts of `annex-util.c` and `annex-path.c`): what `jjs_pmap` accepts, and how a
specifier is resolved.

A string is the list of its code units. An object is plain: it has own data properties, some of them enumerable, and does
not change after it was accepted. `jjs_platform_realpath` and `jjs_platform_cwd` are parameters. The file names are those
of a POSIX system; a package map that is given as the name of a JSON file is accepted or rejected in the same way once it
is read, and is not modelled. All exceptions are type errors, with their texts.
-/

namespace JJS
namespace Pmap

open Utf8 (Byte CodeUnit cesu8)
open Annex (isalnum)
open Lit (isExtraByte)

/-! ## Values -/

/-- An `ecma_value_t`. A property has a name, and is enumerable or not. -/
inductive Value where
  | string (units : List CodeUnit)
  | object (isArray : Bool) (properties : List (List CodeUnit × Bool × Value))
  | undefined
  | other

/-- The code units of ASCII characters. -/
def ascii (chars : List Char) : List CodeUnit := chars.map fun c => .ofNat 16 c.toNat

def litMagicStringPackages : List CodeUnit := ascii ['p', 'a', 'c', 'k', 'a', 'g', 'e', 's']

def litMagicStringMain : List CodeUnit := ascii ['m', 'a', 'i', 'n']

def litMagicStringPath : List CodeUnit := ascii ['p', 'a', 't', 'h']

def litMagicStringModule : List CodeUnit := ascii ['m', 'o', 'd', 'u', 'l', 'e']

def litMagicStringCommonjs : List CodeUnit := ascii ['c', 'o', 'm', 'm', 'o', 'n', 'j', 's']

/-- `LIT_MAGIC_STRING_SLASH_CHAR`. -/
def slash : CodeUnit := 0x2f#16

/-- `ecma_find_own_m` and `ecma_find_own_v`. -/
def ecmaFindOwn (object : Value) (key : List CodeUnit) : Option Value :=
  match object with
  | .object _ properties => (properties.find? fun property => property.1 = key).map fun property => property.2.2
  | _ => none

/-- `ecma_has_own_m`. -/
def ecmaHasOwn (object : Value) (key : List CodeUnit) : Bool := (ecmaFindOwn object key).isSome

/-- `jjs_object_keys`. -/
def jjsObjectKeys : Value → List (List CodeUnit)
  | .object _ properties => (properties.filter fun property => property.2.1).map fun property => property.1
  | _ => []

/-- `is_object`. -/
def isObject : Value → Bool
  | .object isArray _ => !isArray
  | _ => false

/-! ## Bytes of a string -/

/-- A size up to which no character is cut. -/
def wholeCharacters (bytes : List Byte) : Nat → Nat
  | 0 => 0
  | size + 1 => if isExtraByte (bytes.getD (size + 1) 0#8) then wholeCharacters bytes size else size + 1

/-- `ecma_string_copy_to_buffer` with `JJS_ENCODING_CESU8`: the bytes that are copied. -/
def ecmaStringCopyToBuffer (units : List CodeUnit) (bufferSize : Nat) : List Byte :=
  let bytes := cesu8 units
  let copySize := min bytes.length bufferSize
  bytes.take (if copySize < bytes.length then wholeCharacters bytes copySize else copySize)

/-- `starts_with_dot_slash`. -/
def startsWithDotSlash : Value → Bool
  | .string units => ecmaStringCopyToBuffer units 2 = [0x2e#8, 0x2f#8]
  | _ => false

/-- `NPM_PACKAGE_NAME_LENGTH_LIMIT`. -/
def npmPackageNameLengthLimit : Nat := 214

/-- The loop of `annex_util_is_valid_package_name`: a letter in lower case, a digit, or one of `-_@/:.` -/
def isPackageNameByte (c : Byte) : Bool :=
  if isalnum c then !(0x41#8 ≤ c && c ≤ 0x5a#8)
  else [0x2d#8, 0x5f#8, 0x40#8, 0x2f#8, 0x3a#8, 0x2e#8].contains c

/-- `annex_util_is_valid_package_name`. -/
def annexUtilIsValidPackageName : Value → Bool
  | .string name =>
    let bytes := cesu8 name
    if bytes.length = 0 ∨ npmPackageNameLengthLimit < bytes.length then false
    else if bytes.getD 0 0#8 = 0x2e#8 ∨ bytes.getD 0 0#8 = 0x5f#8 then false
    else bytes.all isPackageNameByte
  | _ => false

/-- `annex_specifier_type_t`. -/
inductive SpecifierType where
  | none
  | relative
  | absolute
  | package
  | fileUrl
deriving DecidableEq

/-- `FILE_URL_PREFIX_LEN`. -/
def fileUrlPrefixLen : Nat := 5

/-- `annex_path_specifier_type`, with `jjsp_path_is_relative` and `jjsp_path_is_absolute`. -/
def annexPathSpecifierType : Value → SpecifierType
  | .string units =>
    let path := ecmaStringCopyToBuffer units fileUrlPrefixLen
    if path.length = 0 then .none
    else if path.getD 0 0#8 = 0x2e#8 then .relative
    else if path.getD 0 0#8 = 0x2f#8 then .absolute
    else if path = [0x66#8, 0x69#8, 0x6c#8, 0x65#8, 0x3a#8] then .fileUrl
    else .package
  | _ => .none

/-! ## Validation -/

/-- `jjs_module_type_t`. -/
inductive ModuleType where
  | none
  | module
  | commonjs
deriving DecidableEq

/-- The property of a module type. -/
def ModuleType.key : ModuleType → Option (List CodeUnit)
  | .none => Option.none
  | .module => some litMagicStringModule
  | .commonjs => some litMagicStringCommonjs

/-- `expect_path_like_string`. -/
def expectPathLikeString (value : Value) : Except String Unit :=
  if startsWithDotSlash value then .ok () else .error "pmap: fs path values must start with './'"

/-- A property of `validate_path_or_main`, when it exists. -/
def validatePathProperty (value : Option Value) (message : String) : Except String Unit :=
  match value with
  | none => .ok ()
  | some (.string units) => expectPathLikeString (.string units)
  | some _ => .error message

/-- `validate_path_or_main`. -/
def validatePathOrMain (packageInfo : Value) : Except String Unit :=
  match packageInfo with
  | .string units => expectPathLikeString (.string units)
  | _ => do
    let mainValue := ecmaFindOwn packageInfo litMagicStringMain
    let pathValue := ecmaFindOwn packageInfo litMagicStringPath
    if mainValue.isNone && pathValue.isNone then .error "pmap package_info must have either a main or path property"
    else
      validatePathProperty mainValue "pmap package_info main property must be a string"
      validatePathProperty pathValue "pmap package_info path property must be a string"

/-- `validate_module_type`: whether the value was found. -/
def validateModuleType (packageInfo : Value) (key : List CodeUnit) : Except String Bool :=
  match ecmaFindOwn packageInfo key with
  | none => .ok false
  | some value => (validatePathOrMain value).map fun _ => true

/-- `validate_package_info`. -/
def validatePackageInfo (packageInfo : Value) : Except String Unit := do
  let commonjsFound ← validateModuleType packageInfo litMagicStringCommonjs
  let moduleFound ← validateModuleType packageInfo litMagicStringModule
  if commonjsFound || moduleFound then
    if ecmaHasOwn packageInfo litMagicStringPath || ecmaHasOwn packageInfo litMagicStringMain then
      .error "pmap package_info cannot have a path or main property if it has a module or commonjs property"
    else .ok ()
  else validatePathOrMain packageInfo

/-- The loop of `validate_pmap`. -/
def validatePackages (packages : Value) : List (List CodeUnit) → Except String Unit
  | [] => .ok ()
  | key :: keys =>
    if annexUtilIsValidPackageName (.string key) then do
      validatePackageInfo ((ecmaFindOwn packages key).getD .other)
      validatePackages packages keys
    else validatePackages packages keys

/-- `validate_pmap`. -/
def validatePmap (pmap : Value) : Except String Unit :=
  if !isObject pmap then .error "pmap must be an object"
  else
    match ecmaFindOwn pmap litMagicStringPackages with
    | none => .error "pmap contains no 'packages' property"
    | some packages =>
      if !isObject packages then .error "pmap 'packages' property must be an object"
      else validatePackages packages (jjsObjectKeys packages)

/-- `jjs_platform_realpath` and `jjs_platform_cwd`. -/
structure Platform where
  realpath : List CodeUnit → Except String (List CodeUnit)
  cwd : Except String (List CodeUnit)

/-- What is used of `jjs_context_t`. -/
structure Context where
  pmap : Value
  pmapRoot : Value

/-- `jjs_pmap`, when the package map is not a file name. On an error the context remains. -/
def jjsPmap (platform : Platform) (pmap root : Value) : Except String Context := do
  validatePmap pmap
  let resolvedRoot ← match root with
    | .undefined => platform.cwd
    | .string units => platform.realpath units
    | _ => .error ""
  .ok ⟨pmap, .string resolvedRoot⟩

/-! ## Resolution -/

/-- `annex_path_normalize`. -/
def annexPathNormalize (platform : Platform) (path : List CodeUnit) : Option (List CodeUnit) :=
  if path.length = 0 then none else (platform.realpath path).toOption

/-- `annex_path_join` of two strings. -/
def annexPathJoin (platform : Platform) (referrer specifier : List CodeUnit) (normalize : Bool) : Option (List CodeUnit) :=
  let result := referrer ++ [slash] ++ specifier
  if normalize then annexPathNormalize platform result else some result

/-- `get_path_type`, which calls itself as `deeper` on the value of the module type. -/
def getPathTypeWith (deeper : Value → Option (List CodeUnit)) (type : List CodeUnit) (moduleType : ModuleType)
    (object : Value) : Option (List CodeUnit) :=
  match object with
  | .string units => some units
  | .object _ _ =>
    match ecmaFindOwn object type with
    | some (.string units) => some units
    | _ =>
      match moduleType.key with
      | some key => (ecmaFindOwn object key).bind deeper
      | none => none
  | _ => none

/-- `get_path_type`. The inner call is for `JJS_MODULE_TYPE_NONE` and makes no other. -/
def getPathType (type : List CodeUnit) (moduleType : ModuleType) (object : Value) : Option (List CodeUnit) :=
  getPathTypeWith (getPathTypeWith (fun _ => none) type .none) type moduleType object

/-- `ECMA_INTEGER_NUMBER_MAX`. -/
def ecmaIntegerNumberMax : Nat := 0x7ffffff

/-- The loop of `ecma_builtin_helper_string_find_last_index`, for a string of one code unit. -/
def findLastIndexLoop (string : List CodeUnit) (search : CodeUnit) : Nat → Option Nat
  | 0 => if string[0]? = some search then some 0 else none
  | position + 1 =>
    if string[position + 1]? = some search then some (position + 1) else findLastIndexLoop string search position

/-- `ecma_builtin_helper_string_find_last_index`. -/
def findLastIndex (string : List CodeUnit) (search : CodeUnit) (position : Nat) : Option Nat :=
  if string.length = 0 then none
  else findLastIndexLoop string search (if position + 1 > string.length then position - 1 else position)

/-- `last_index_of`. An index that is no small integer counts as none. -/
def lastIndexOf (string : List CodeUnit) (search : CodeUnit) (position : Nat) : Option Nat :=
  (findLastIndex string search (min position string.length)).filter fun index => index ≤ ecmaIntegerNumberMax

/-- `substr`, which is `ecma_string_substr`. -/
def substr (string : List CodeUnit) (startPos endPos : Nat) : List CodeUnit :=
  if endPos ≤ startPos then [] else (string.drop startPos).take (endPos - startPos)

/-- The path of a package joined with the rest of the specifier. -/
def packagePath (platform : Platform) (root specifier : List CodeUnit) (moduleType : ModuleType) (packageInfo : Value)
    (lastSlashIndex : Nat) : Option (List CodeUnit) := do
  let path ← getPathType litMagicStringPath moduleType packageInfo
  let temp ← annexPathJoin platform root path false
  annexPathJoin platform temp (substr specifier (lastSlashIndex + 1) specifier.length) true

/-- The loop of `find_nearest_package_path`; no result is one that is not a string. -/
def findNearestLoop (platform : Platform) (packages : Value) (root specifier : List CodeUnit) (moduleType : ModuleType) :
    Nat → Nat → Option (Option (List CodeUnit))
  | 0, _ => none
  | rounds + 1, position =>
    match lastIndexOf specifier slash position with
    | none => some none
    | some lastSlashIndex =>
      match ecmaFindOwn packages (substr specifier 0 lastSlashIndex) with
      | some packageInfo => some (packagePath platform root specifier moduleType packageInfo lastSlashIndex)
      | none =>
        if 0 < lastSlashIndex then
          findNearestLoop platform packages root specifier moduleType rounds (lastSlashIndex - 1)
        else some none

/-- `find_nearest_package_path`. Each round is at a slash further to the front. -/
def findNearestPackagePath (platform : Platform) (packages : Value) (root specifier : List CodeUnit)
    (moduleType : ModuleType) : Option (Option (List CodeUnit)) :=
  findNearestLoop platform packages root specifier moduleType (specifier.length + 1) specifier.length

/-- The end of `jjs_annex_pmap_resolve`, with the text for a path that is not there. -/
def pathOrThrow (message : String) (path : Option (List CodeUnit)) : Except String (List CodeUnit) :=
  match path with
  | some path => .ok path
  | none => .error message

/-- `jjs_annex_pmap_resolve`. -/
def jjsAnnexPmapResolve (platform : Platform) (context : Context) (specifier : Value) (moduleType : ModuleType) :
    Option (Except String (List CodeUnit)) :=
  match specifier with
  | .string specifier =>
    match context.pmap with
    | .object _ _ =>
      match context.pmapRoot with
      | .string pmapRoot =>
        -- without packages there is nothing in them
        let packages := (ecmaFindOwn context.pmap litMagicStringPackages).getD .other
        match ecmaFindOwn packages specifier with
        | none =>
          (findNearestPackagePath platform packages pmapRoot specifier moduleType).map (pathOrThrow "package not found")
        | some packageInfo =>
          let file := getPathType litMagicStringMain moduleType packageInfo
          some (pathOrThrow "failed to resolve specifier" (file.bind fun file => annexPathJoin platform pmapRoot file true))
      | _ => some (.error "pmap root has not been set")
    | _ => some (.error "pmap has not been set")
  | _ => some (.error "specifier must be a string")

end Pmap
end JJS
