import JJS.Lib.Percent
import JJS.Strings.Scalars

/-!
# JJS.Builtin.Global

The functions of the global object that encode and decode strings (`ecma-builtin-global.c`): `encodeURI`,
`encodeURIComponent` and their inverses, `escape` and `unescape`. A string is its CESU-8 characters, and the string
builder is what it has been given.
-/

namespace JJS
namespace Builtin
namespace Global

open Utf8 Lit Strings

/-- What `ecma_raise_uri_error` is called with. -/
inductive UriError where
  | invalidHexadecimalValue
  | invalidUtf8Character
  | invalidUtf8String
  | invalidUtf8Codepoint
  | unicodeSurrogatePairMissing
  deriving DecidableEq

/-- `ecma_builtin_global_object_character_is_in`. -/
def characterIsIn (character : Nat) (bitset : List Byte) : Bool :=
  bitset.getD (character / 8) 0#8 &&& (1#8 <<< (character % 8)) != 0#8

/-- `unescaped_uri_set`. -/
def unescapedUriSet : List Byte :=
  [0x0#8, 0x0#8, 0x0#8, 0x0#8, 0xda#8, 0xff#8, 0xff#8, 0xaf#8, 0xff#8, 0xff#8, 0xff#8, 0x87#8, 0xfe#8, 0xff#8, 0xff#8,
    0x47#8]

/-- `unescaped_uri_component_set`. -/
def unescapedUriComponentSet : List Byte :=
  [0x0#8, 0x0#8, 0x0#8, 0x0#8, 0x82#8, 0x67#8, 0xff#8, 0x3#8, 0xfe#8, 0xff#8, 0xff#8, 0x87#8, 0xfe#8, 0xff#8, 0xff#8,
    0x47#8]

/-- `ecma_escape_set`. -/
def ecmaEscapeSet : List Byte :=
  [0x0#8, 0x0#8, 0x0#8, 0x0#8, 0x0#8, 0xec#8, 0xff#8, 0x3#8, 0xff#8, 0xff#8, 0xff#8, 0x87#8, 0xfe#8, 0xff#8, 0xff#8,
    0x7#8]

/-! ## Decoding -/

/-- `bytes_count`: the number of bytes of a character from its first byte. -/
def bytesCount (decodedByte : Byte) : Option Nat :=
  if decodedByte &&& 0xe0#8 = 0xc0#8 then some 2
  else if decodedByte &&& 0xf0#8 = 0xe0#8 then some 3
  else if decodedByte &&& 0xf8#8 = 0xf0#8 then some 4
  else none

/-- The loop over the other bytes of a character: their values and the rest of the input. The null case is
`is_valid = false`. -/
def decodeOctets : Nat → List Byte → Option (List Byte × List Byte)
  | 0, input => some ([], input)
  | _ + 1, [] => none
  | count + 1, char :: input =>
    if char ≠ 0x25#8 then none
    else
      match litCharHexLookup input 2 with
      | none => none
      | some hexValue =>
        let octet : Byte := BitVec.ofNat 8 hexValue
        if octet &&& 0xc0#8 ≠ 0x80#8 then none
        else do
          let (octets, input) ← decodeOctets count (input.drop 2)
          some (octet :: octets, input)

/-- `lit_is_code_point_utf16_high_surrogate` or `lit_is_code_point_utf16_low_surrogate`, of a whole code point. -/
def isSurrogate (cp : CodePoint) : Bool :=
  (decide (0xd800#32 ≤ cp) && decide (cp ≤ 0xdbff#32)) || (decide (0xdc00#32 ≤ cp) && decide (cp ≤ 0xdfff#32))

/-- The characters that a byte of at least 128 stands for together with the escapes that follow. -/
def decodeMultibyte (decodedByte : Byte) (input : List Byte) : Except UriError (List Byte × List Byte) :=
  match bytesCount decodedByte with
  | none => .error .invalidUtf8Character
  | some count =>
    match decodeOctets (count - 1) input with
    | none => .error .invalidUtf8String
    | some (extra, input) =>
      let octets := decodedByte :: extra
      if litIsValidUtf8String true octets = false then .error .invalidUtf8String
      else
        match litReadCodePointFromUtf8 octets with
        | none => .error .invalidUtf8String
        | some (_, cp) => if isSurrogate cp then .error .invalidUtf8Codepoint else .ok (litCodePointToCesu8 cp, input)

/-- One turn of the loop of `ecma_builtin_global_object_decode_uri_helper` at a percent sign: what the builder is given
and where the input goes on. A reserved character keeps its escape: the percent sign is copied, and the input is backed
up to the digits. -/
def decodeEscape (reservedUriBitset : List Byte) (input : List Byte) : Except UriError (List Byte × List Byte) :=
  match litCharHexLookup input 2 with
  | none => .error .invalidHexadecimalValue
  | some hexValue =>
    if hexValue ≤ 0x7f then
      if characterIsIn hexValue reservedUriBitset && !characterIsIn hexValue unescapedUriComponentSet then
        .ok ([0x25#8], input)
      else .ok ([BitVec.ofNat 8 hexValue], input.drop 2)
    else decodeMultibyte (BitVec.ofNat 8 hexValue) (input.drop 2)

/-- The loop of `ecma_builtin_global_object_decode_uri_helper`. The first argument bounds the number of steps. -/
def decodeUriLoop (reservedUriBitset : List Byte) : Nat → List Byte → Except UriError (List Byte)
  | _, [] => .ok []
  | 0, _ :: _ => .ok []
  | steps + 1, char :: input =>
    if char ≠ 0x25#8 then do
      let rest ← decodeUriLoop reservedUriBitset steps input
      .ok (char :: rest)
    else do
      let (chars, input) ← decodeEscape reservedUriBitset input
      let rest ← decodeUriLoop reservedUriBitset steps input
      .ok (chars ++ rest)

/-- `ecma_builtin_global_object_decode_uri_helper`. -/
def decodeUriHelper (reservedUriBitset : List Byte) (input : List Byte) : Except UriError (List Byte) :=
  decodeUriLoop reservedUriBitset input.length input

/-! ## Encoding -/

/-- A digit of `ecma_builtin_global_object_byte_to_hex`. -/
def hexDigitChar (hexDigit : Nat) : Byte :=
  BitVec.ofNat 8 (if 9 < hexDigit then hexDigit + (0x41 - 10) else hexDigit + 0x30)

/-- `ecma_builtin_global_object_byte_to_hex`. -/
def byteToHex (byte : Nat) : List Byte := [0x25#8, hexDigitChar (byte / 16), hexDigitChar (byte % 16)]

/-- What the builder is given for the UTF-8 encoding of a code point. -/
def encodeOctets (unescapedUriBitset : List Byte) (octets : List Byte) : List Byte :=
  match octets with
  | [octet] => if characterIsIn octet.toNat unescapedUriBitset then [octet] else byteToHex octet.toNat
  | octets => octets.flatMap fun octet => byteToHex octet.toNat

/-- The loop of `ecma_builtin_global_object_encode_uri_helper`. The first argument bounds the number of steps. -/
def encodeUriLoop (unescapedUriBitset : List Byte) : Nat → List Byte → Except UriError (List Byte)
  | _, [] => .ok []
  | 0, _ :: _ => .ok []
  | steps + 1, char :: input =>
    match readPairedCodePoint (char :: input) with
    | none => .error .unicodeSurrogatePairMissing
    | some (cp, input) =>
      match litCodePointToUtf8 cp with
      | none => .error .unicodeSurrogatePairMissing
      | some octets => do
        let rest ← encodeUriLoop unescapedUriBitset steps input
        .ok (encodeOctets unescapedUriBitset octets ++ rest)

/-- `ecma_builtin_global_object_encode_uri_helper`. -/
def encodeUriHelper (unescapedUriBitset : List Byte) (input : List Byte) : Except UriError (List Byte) :=
  encodeUriLoop unescapedUriBitset input.length input

/-! ## Escapes -/

/-- What `ecma_builtin_global_object_escape` gives the builder for a code unit. -/
def escapeUnit (chr : CodeUnit) : List Byte :=
  if chr ≤ 0x7f#16 then
    if characterIsIn chr.toNat ecmaEscapeSet then litCodePointToCesu8Bytes (chr.setWidth 32) else byteToHex chr.toNat
  else if 0xff#16 < chr then
    litCodePointToCesu8Bytes 0x25#32 ++ (litCodePointToCesu8Bytes 0x75#32 ++
      ((byteToHex (chr >>> 8).toNat).drop 1 ++ (byteToHex (chr &&& 0xff#16).toNat).drop 1))
  else byteToHex chr.toNat

/-- The loop of `ecma_builtin_global_object_escape`. The first argument bounds the number of steps; the null case is a
failed assertion. -/
def escapeLoop : Nat → List Byte → Option (List Byte)
  | _, [] => some []
  | 0, _ :: _ => none
  | steps + 1, char :: input => do
    let (readSize, chr) ← litReadCodeUnitFromCesu8 (char :: input)
    let rest ← escapeLoop steps ((char :: input).drop readSize)
    some (escapeUnit chr ++ rest)

/-- `ecma_builtin_global_object_escape`. -/
def escape (input : List Byte) : Option (List Byte) := escapeLoop input.length input

/-- The loop of `ecma_builtin_global_object_unescape_resolve_escape`. -/
def resolveLoop : CodeUnit → List Byte → Option CodeUnit
  | unescapedChr, [] => some unescapedChr
  | unescapedChr, currentChar :: buffer =>
    if litCharIsHexDigit currentChar then
      resolveLoop ((unescapedChr <<< 4) + BitVec.ofNat 16 (litCharHexToInt currentChar)) buffer
    else none

/-- `ecma_builtin_global_object_unescape_resolve_escape`: the number of bytes, and the character, which stays as it was
when there is no escape. -/
def unescapeResolveEscape (buffer : List Byte) (unicodeSequence : Bool) (chr : CodeUnit) : Nat × CodeUnit :=
  let sequenceLength := if unicodeSequence then 5 else 2
  let start := if unicodeSequence then 1 else 0
  match resolveLoop 0#16 ((buffer.take sequenceLength).drop start) with
  | none => (0, chr)
  | some unescapedChr => (sequenceLength, unescapedChr)

/-- The loop of `ecma_builtin_global_object_unescape`. The first argument bounds the number of steps; the null case is
a failed assertion. -/
def unescapeLoop : Nat → List Byte → Option (List Byte)
  | _, [] => some []
  | 0, _ :: _ => none
  | steps + 1, char :: input => do
    let (readSize, chr) ← litReadCodeUnitFromCesu8 (char :: input)
    let input := (char :: input).drop readSize
    let (size, chr) :=
      if chr = 0x25#16 then
        if 5 ≤ input.length ∧ input.head? = some 0x75#8 then unescapeResolveEscape input true chr
        else if 2 ≤ input.length then unescapeResolveEscape input false chr
        else (0, chr)
      else (0, chr)
    let rest ← unescapeLoop steps (input.drop size)
    some (litCodePointToCesu8Bytes (chr.setWidth 32) ++ rest)

/-- `ecma_builtin_global_object_unescape`. -/
def unescape (input : List Byte) : Option (List Byte) := if input.isEmpty then some [] else unescapeLoop input.length input

/-! ## The sets -/

/-- The sets between which `ecma_builtin_global_dispatch_routine` chooses: one for `decodeURI` and `encodeURI`, the other
for `decodeURIComponent` and `encodeURIComponent`. -/
inductive UriSet where
  | uri
  | component

/-- `uri_set`. -/
def UriSet.bitset : UriSet → List Byte
  | .uri => unescapedUriSet
  | .component => unescapedUriComponentSet

end Global
end Builtin
end JJS
