import JJS.Hashset.Basic
import JJS.Lib.Bisect
import JJS.Lit.Char

/-!
# JJS.Strings.Basic

ECMAScript strings (`ecma-helpers-string.c`): the special forms, the constructors, equality and access to
the characters.

A string is a direct value (a magic string or a small number) or the address of a descriptor. Two strings
that are alive have different addresses, so a constructor takes the address that its allocation gives.
The magic strings are those of `lit-magic-strings.inc.h`, which depend on the configuration: what is
used of them is that they are sorted by size and then by bytes and begin with the empty string. The
external ones are any that `lit_magic_strings_ex_set` accepts.

Memory is not modelled beyond that; a part of a buffer that is not written reads as zero, and the
callback that frees the buffer of an external string is left out.
-/

namespace JJS
namespace Strings

open Utf8 Lit
open Hashset (litUtf8StringCalcHash)

/-! ## Magic strings -/

/-- `memcmp` on lists of one length. -/
def memcmp : List Byte → List Byte → Ordering
  | a :: as, b :: bs => if a < b then .lt else if b < a then .gt else memcmp as bs
  | _, _ => .eq

/-- A table of strings is sorted by size and then by bytes, without repetition. -/
def Sorted (table : List (List Byte)) : Prop :=
  table.Pairwise fun s t => s.length < t.length ∨ s.length = t.length ∧ memcmp s t = .lt

instance (table : List (List Byte)) : Decidable (Sorted table) :=
  inferInstanceAs (Decidable (table.Pairwise fun s t => s.length < t.length ∨ s.length = t.length ∧ memcmp s t = .lt))

/-- `ECMA_DIRECT_STRING_MAX_IMM`. -/
def directStringMaxImm (cpointer32Bit : Bool) : Nat := if cpointer32Bit then 0x07ffffff else 0x0000ffff

/-- The tables of a context and the parts of the configuration that strings depend on. `magicStrings` has the
non-internal ones, `magicStringCount` is `LIT_MAGIC_STRING__COUNT`, and `externalMinSize` is
`sizeof (ecma_external_string_t) - sizeof (ecma_short_string_t)`. -/
structure Context where
  cpointer32Bit : Bool
  externalMinSize : Nat
  magicStrings : List (List Byte)
  magicStringCount : Nat
  exArray : List (List Byte)
  magic_empty : magicStrings.head? = some []
  magic_sorted : Sorted magicStrings
  magic_count : magicStrings.length ≤ magicStringCount
  magic_direct : magicStringCount ≤ directStringMaxImm cpointer32Bit
  ex_sorted : Sorted exArray
  ex_limit : exArray.length ≤ (2 ^ 32 - 1) / 2

variable (context : Context)

/-- `lit_get_magic_string_utf8`. -/
def litGetMagicStringUtf8 (id : Nat) : List Byte := context.magicStrings.getD id []

/-- `lit_get_magic_string_size_block_start`: the first string that is not shorter. -/
def litGetMagicStringSizeBlockStart (size : Nat) : Nat := (context.magicStrings.filter (·.length < size)).length

/-- `lit_is_utf8_string_magic`. -/
def litIsUtf8StringMagic (s : List Byte) : Nat :=
  if (litGetMagicStringUtf8 context (context.magicStrings.length - 1)).length < s.length then
    context.magicStringCount
  else
    let first := litGetMagicStringSizeBlockStart context s.length
    let last := litGetMagicStringSizeBlockStart context (s.length + 1)
    (Bisect.search (fun middle => memcmp (litGetMagicStringUtf8 context middle) s) first last).getD
      context.magicStringCount

/-- `lit_get_magic_string_ex_count`. -/
def litGetMagicStringExCount : Nat := context.exArray.length

/-- `lit_get_magic_string_ex_utf8`. -/
def litGetMagicStringExUtf8 (id : Nat) : List Byte := context.exArray.getD id []

/-- `lit_is_ex_utf8_string_magic`. -/
def litIsExUtf8StringMagic (s : List Byte) : Nat :=
  let count := litGetMagicStringExCount context
  if count = 0 ∨ (litGetMagicStringExUtf8 context (count - 1)).length < s.length then count
  else
    let compare (middle : Nat) : Ordering :=
      let ext := litGetMagicStringExUtf8 context middle
      if s.length = ext.length then memcmp ext s else if ext.length < s.length then .lt else .gt
    (Bisect.search compare 0 count).getD count

/-! ## Array indices -/

/-- `ECMA_MAX_CHARS_IN_STRINGIFIED_UINT32`. -/
def maxCharsInStringifiedUint32 : Nat := 10

/-- `UINT32_MAX`. -/
def uint32Max : Nat := 2 ^ 32 - 1

/-- The loop of `ecma_string_to_array_index`; it stops with `none` at a character that is no digit. -/
def arrayIndexLoop (index : Nat) : List Byte → Option Nat
  | [] => some index
  | b :: s =>
    if 0x39#8 < b ∨ b < 0x30#8 then none else arrayIndexLoop (index * 10 + (b.toNat - 0x30)) s

/-- `ecma_string_to_array_index`, for a string that begins with a digit. -/
def ecmaStringToArrayIndex (s : List Byte) : Option Nat :=
  if s.head? = some 0x30#8 then if s.length = 1 then some 0 else none
  else if maxCharsInStringifiedUint32 < s.length then none
  else if s.length < maxCharsInStringifiedUint32 then arrayIndexLoop 0 s
  else do
    let index ← arrayIndexLoop 0 (s.take (maxCharsInStringifiedUint32 - 1))
    let last := s.getD (maxCharsInStringifiedUint32 - 1) 0#8
    if 0x39#8 < last ∨ last < 0x30#8 ∨ uint32Max / 10 < index ∨ (index = uint32Max / 10 ∧ 0x35#8 < last) then none
    else some (index * 10 + (last.toNat - 0x30))

/-- The loop of `ecma_uint32_to_utf8_string`, from the last digit on. -/
def uint32Loop : Nat → Nat → List Byte → List Byte
  | 0, _, out => out
  | steps + 1, value, out =>
    let out := BitVec.ofNat 8 (value % 10 + 0x30) :: out
    if value / 10 = 0 then out else uint32Loop steps (value / 10) out

/-- `ecma_uint32_to_utf8_string`. -/
def ecmaUint32ToUtf8String (value : Nat) : List Byte := uint32Loop maxCharsInStringifiedUint32 value []

/-! ## Strings -/

/-- `ecma_direct_string_type_t`, for strings. -/
inductive DirectType where
  | magic
  | uint
deriving DecidableEq, Repr

/-- What a string pointer points to, by `ecma_string_container_t`. An ASCII string keeps its size less one in
a byte. The number of a number string and the identifier of an external magic string are in the place of
the hash. -/
inductive Descriptor where
  | heapUtf8 (hash : BitVec 32) (size length : BitVec 16) (buffer : List Byte)
  | longOrExternal (hash : BitVec 32) (size length : Nat) (string : List Byte)
  | uint32InDesc (number : BitVec 32)
  | heapAscii (hash : BitVec 32) (size : BitVec 8) (buffer : List Byte)
  | magicStringEx (id : BitVec 32)
deriving DecidableEq, Repr

/-- `ecma_string_t *`. -/
inductive EcmaString where
  | direct (type : DirectType) (value : Nat)
  | heap (address : Nat) (descriptor : Descriptor)
deriving DecidableEq, Repr

/-- `u.hash`. -/
def Descriptor.hash : Descriptor → BitVec 32
  | .heapUtf8 hash _ _ _ => hash
  | .longOrExternal hash _ _ _ => hash
  | .uint32InDesc number => number
  | .heapAscii hash _ _ => hash
  | .magicStringEx id => id

/-- The container is `ECMA_STRING_CONTAINER_UINT32_IN_DESC`. -/
def Descriptor.isUint32InDesc : Descriptor → Bool
  | .uint32InDesc _ => true
  | _ => false

/-- `ECMA_ASCII_STRING_GET_SIZE`. -/
def asciiStringGetSize (size : BitVec 8) : Nat := size.toNat + 1

/-- `ecma_get_magic_string`. -/
def ecmaGetMagicString (id : Nat) : EcmaString := .direct .magic id

/-- `LIT_MAGIC_STRING__EMPTY`. -/
def magicStringEmpty : Nat := 0

/-- `ecma_new_ecma_string_from_uint32`. -/
def ecmaNewEcmaStringFromUint32 (address : Nat) (number : BitVec 32) : EcmaString :=
  if number.toNat ≤ directStringMaxImm context.cpointer32Bit then .direct .uint number.toNat
  else .heap address (.uint32InDesc number)

/-- `ecma_new_ecma_string_from_magic_string_ex_id`. -/
def ecmaNewEcmaStringFromMagicStringExId (address : Nat) (id : Nat) : EcmaString :=
  let stringId := id + context.magicStringCount
  if stringId ≤ directStringMaxImm context.cpointer32Bit then .direct .magic stringId
  else .heap address (.magicStringEx (BitVec.ofNat 32 stringId))

/-- `ecma_find_special_string`. -/
def ecmaFindSpecialString (address : Nat) (s : List Byte) : Option EcmaString :=
  let magicStringId := litIsUtf8StringMagic context s
  if magicStringId ≠ context.magicStringCount then some (ecmaGetMagicString magicStringId)
  else
    let index := if s.head?.any litCharIsDecimalDigit then ecmaStringToArrayIndex s else none
    match index with
    | some index => some (ecmaNewEcmaStringFromUint32 context address (BitVec.ofNat 32 index))
    | none =>
      let exId := litIsExUtf8StringMagic context s
      if 0 < litGetMagicStringExCount context ∧ exId < litGetMagicStringExCount context then
        some (ecmaNewEcmaStringFromMagicStringExId context address exId)
      else none

/-- `lit_get_unicode_char_size_by_utf8_first_byte`. -/
def litGetUnicodeCharSizeByUtf8FirstByte (b : Byte) : Nat :=
  if b &&& 0x80#8 = 0x00#8 then 1 else if b &&& 0xe0#8 = 0xc0#8 then 2 else 3

/-- The loop of `lit_utf8_string_length`. The first argument bounds the number of steps. -/
def stringLengthLoop : Nat → List Byte → Nat
  | 0, _ => 0
  | _, [] => 0
  | steps + 1, b :: s => stringLengthLoop steps ((b :: s).drop (litGetUnicodeCharSizeByUtf8FirstByte b)) + 1

/-- `lit_utf8_string_length`. -/
def litUtf8StringLength (s : List Byte) : Nat := stringLengthLoop s.length s

/-- `ecma_new_ecma_string_from_utf8_buffer`, with the hash and the characters that the caller then writes. -/
def ecmaNewEcmaStringFromUtf8Buffer (length size : Nat) (hash : BitVec 32) (data : List Byte) : Descriptor :=
  if size ≤ 2 ^ 16 - 1 then
    if length = size ∧ size ≤ 2 ^ 8 - 1 + 1 then .heapAscii hash (BitVec.ofNat 8 (size - 1)) data
    else .heapUtf8 hash (BitVec.ofNat 16 size) (BitVec.ofNat 16 length) data
  else .longOrExternal hash size length data

/-! ## Constructors -/

/-- `ecma_new_ecma_string_from_utf8`. -/
def ecmaNewEcmaStringFromUtf8 (address : Nat) (s : List Byte) : EcmaString :=
  match ecmaFindSpecialString context address s with
  | some special => special
  | none =>
    .heap address (ecmaNewEcmaStringFromUtf8Buffer (litUtf8StringLength s) s.length (litUtf8StringCalcHash s) s)

/-- `lit_code_unit_to_utf8`. -/
def litCodeUnitToUtf8 (codeUnit : CodeUnit) : List Byte :=
  let bits : CodePoint := codeUnit.setWidth 32
  if codeUnit ≤ 0x7f#16 then [codeUnit.setWidth 8]
  else if codeUnit ≤ 0x7ff#16 then [markedByte 0xc0#8 0x1f#32 (bits >>> 6), markedByte 0x80#8 0x3f#32 bits]
  else
    [markedByte 0xe0#8 0x0f#32 (bits >>> 12), markedByte 0x80#8 0x3f#32 (bits >>> 6), markedByte 0x80#8 0x3f#32 bits]

/-- `convert_code_point_to_high_surrogate`. -/
def convertCodePointToHighSurrogate (codePoint : CodePoint) : CodeUnit :=
  0xd800#16 ||| ((codePoint - 0x10000#32) >>> 10).setWidth 16

/-- `convert_code_point_to_low_surrogate`. -/
def convertCodePointToLowSurrogate (codePoint : CodePoint) : CodeUnit :=
  0xdc00#16 ||| (codePoint &&& 0x3ff#32).setWidth 16

/-- `lit_code_point_to_cesu8`. -/
def litCodePointToCesu8 (codePoint : CodePoint) : List Byte :=
  if codePoint ≤ 0xffff#32 then litCodeUnitToUtf8 (codePoint.setWidth 16)
  else
    litCodeUnitToUtf8 (convertCodePointToHighSurrogate codePoint) ++
      litCodeUnitToUtf8 (convertCodePointToLowSurrogate codePoint)

/-- The code points that the loops of `lit_utf16_as_cesu8_measure` and
`lit_convert_utf16_string_to_cesu8_string` read. -/
def utf16CodePoints : List CodeUnit → List CodePoint
  | [] => []
  | [u] => [u.setWidth 32]
  | u :: v :: us =>
    if litIsHighSurrogate u ∧ litIsLowSurrogate v then
      (((u &&& 0x3ff#16).setWidth 32 <<< 10) + (v &&& 0x3ff#16).setWidth 32 + 0x10000#32) :: utf16CodePoints us
    else u.setWidth 32 :: utf16CodePoints (v :: us)

/-- `lit_utf16_as_cesu8_measure`: `character_count` and `cesu8_size`. -/
def litUtf16AsCesu8Measure (us : List CodeUnit) : Nat × Nat :=
  let codePoints := utf16CodePoints us
  (codePoints.length % 2 ^ 32, (codePoints.map fun cp => (litCodePointToCesu8 cp).length).sum % 2 ^ 32)

/-- `lit_convert_utf16_string_to_cesu8_string`: what is written to the buffer of `size` bytes. -/
def litConvertUtf16StringToCesu8String (us : List CodeUnit) (size : Nat) : List Byte :=
  (utf16CodePoints us).foldl
    (fun out cp => if out.length + (litCodePointToCesu8 cp).length ≤ size then out ++ litCodePointToCesu8 cp else out) []

/-- `ecma_new_ecma_string_from_utf16`. -/
def ecmaNewEcmaStringFromUtf16 (address : Nat) (us : List CodeUnit) : EcmaString :=
  if us.length = 0 then ecmaGetMagicString magicStringEmpty
  else
    let measure := litUtf16AsCesu8Measure us
    let written := litConvertUtf16StringToCesu8String us measure.2
    let data := written ++ List.replicate (measure.2 - written.length) 0#8
    .heap address (ecmaNewEcmaStringFromUtf8Buffer measure.1 measure.2 (litUtf8StringCalcHash data) data)

/-- `(b & LIT_UTF8_4_BYTE_MASK) == LIT_UTF8_4_BYTE_MARKER`. -/
def isFourByteMarker (b : Byte) : Bool := b &&& 0xf8#8 == 0xf0#8

/-- The first loop of `ecma_new_ecma_string_from_utf8_converted_to_cesu8`: the length, and the size that the
conversion adds. The first argument bounds the number of steps. -/
def convertedMeasure : Nat → List Byte → Nat × Nat
  | 0, _ => (0, 0)
  | _, [] => (0, 0)
  | steps + 1, b :: s =>
    if b &&& 0x80#8 = 0x00#8 then ((convertedMeasure steps s).1 + 1, (convertedMeasure steps s).2)
    else if b &&& 0xe0#8 = 0xc0#8 then
      ((convertedMeasure steps (s.drop 1)).1 + 1, (convertedMeasure steps (s.drop 1)).2)
    else if b &&& 0xf0#8 = 0xe0#8 then
      ((convertedMeasure steps (s.drop 2)).1 + 1, (convertedMeasure steps (s.drop 2)).2)
    else ((convertedMeasure steps (s.drop 3)).1 + 1 + 1, (convertedMeasure steps (s.drop 3)).2 + 2)

/-- `lit_four_byte_utf8_char_to_cesu8`. -/
def litFourByteUtf8CharToCesu8 (a b c d : Byte) : List Byte :=
  let codePoint : CodePoint := (a.setWidth 32 &&& 0x07#32) <<< 18
  let codePoint := codePoint ||| ((b.setWidth 32 &&& 0x3f#32) <<< 12)
  let codePoint := codePoint ||| ((c.setWidth 32 &&& 0x3f#32) <<< 6)
  litCodePointToCesu8Bytes (codePoint ||| (d.setWidth 32 &&& 0x3f#32))

/-- The second loop of `ecma_new_ecma_string_from_utf8_converted_to_cesu8`. -/
def convertedCopy : List Byte → List Byte
  | [] => []
  | a :: s =>
    if isFourByteMarker a then
      match s with
      | b :: c :: d :: s => litFourByteUtf8CharToCesu8 a b c d ++ convertedCopy s
      | _ => []
    else a :: convertedCopy s

/-- `ecma_new_ecma_string_from_utf8_converted_to_cesu8`. -/
def ecmaNewEcmaStringFromUtf8ConvertedToCesu8 (address : Nat) (s : List Byte) : EcmaString :=
  let measure := convertedMeasure s.length s
  if measure.2 = 0 then ecmaNewEcmaStringFromUtf8 context address s
  else
    let data := convertedCopy s
    .heap address (ecmaNewEcmaStringFromUtf8Buffer measure.1 ((measure.2 + s.length) % 2 ^ 32)
      (litUtf8StringCalcHash data) data)

/-- `ecma_new_ecma_external_string_from_cesu8`. -/
def ecmaNewEcmaExternalStringFromCesu8 (address : Nat) (s : List Byte) : EcmaString :=
  if s.length < context.externalMinSize then ecmaNewEcmaStringFromUtf8 context address s
  else
    match ecmaFindSpecialString context address s with
    | some special => special
    | none => .heap address (.longOrExternal (litUtf8StringCalcHash s) s.length (litUtf8StringLength s) s)

/-- `ecma_stringbuilder_finalize`, for a builder that holds `s`. -/
def ecmaStringbuilderFinalize (address : Nat) (s : List Byte) : EcmaString :=
  match ecmaFindSpecialString context address s with
  | some special => special
  | none =>
    let hash := litUtf8StringCalcHash s
    let length := litUtf8StringLength s
    if s.length ≤ 2 ^ 16 - 1 ∧ length = s.length ∧ s.length ≤ 2 ^ 8 - 1 + 1 then
      .heap address (.heapAscii hash (BitVec.ofNat 8 (s.length - 1)) s)
    else if s.length ≤ 2 ^ 16 - 1 then
      .heap address (.heapUtf8 hash (BitVec.ofNat 16 s.length) (BitVec.ofNat 16 length) s)
    else .heap address (.longOrExternal hash s.length length s)

/-! ## Access -/

/-- `ecma_string_hash`. -/
def ecmaStringHash : EcmaString → BitVec 32
  | .direct _ value => BitVec.ofNat 32 value
  | .heap _ descriptor => descriptor.hash

/-- `ECMA_STRING_NOT_ARRAY_INDEX`. -/
def stringNotArrayIndex : BitVec 32 := BitVec.ofNat 32 uint32Max

/-- `ecma_string_get_array_index`. -/
def ecmaStringGetArrayIndex : EcmaString → BitVec 32
  | .direct .uint value => BitVec.ofNat 32 value
  | .heap _ (.uint32InDesc number) => number
  | _ => stringNotArrayIndex

/-- `ecma_get_string_magic`. -/
def ecmaGetStringMagic : EcmaString → Nat
  | .direct .magic id => if id < context.magicStringCount then id else context.magicStringCount
  | _ => context.magicStringCount

/-- The part of `ecma_string_flag_t` that `ecma_string_get_chars` sets. -/
structure Flags where
  isAscii : Bool
  rehashNeeded : Bool
  isUint32 : Bool
  mustBeFreed : Bool
deriving DecidableEq, Repr

/-- The characters of a string, their number of bytes, their length and the flags. -/
structure Chars where
  chars : List Byte
  size : Nat
  length : Nat
  flags : Flags
deriving DecidableEq, Repr

/-- `ecma_string_get_uint32_size`: the loop over `prev_number` and `next_number`. -/
def uint32SizeLoop (number : Nat) : Nat → Nat → Nat → Nat → Nat × Nat
  | 0, prev, _, size => (prev, size)
  | steps + 1, prev, next, size =>
    if size < 9 ∧ next ≤ number then uint32SizeLoop number steps next (next * 100 % 2 ^ 32) (size + 2) else (prev, size)

/-- `ecma_string_get_uint32_size`. -/
def ecmaStringGetUint32Size (number : Nat) : Nat :=
  let (prev, size) := uint32SizeLoop number 5 1 100 1
  if prev * 10 % 2 ^ 32 ≤ number then size + 1 else size

/-- The end of `ecma_string_get_chars`: the ASCII flag stays only when the length is the size. -/
def finishChars (flags : Flags) (chars : List Byte) (size length : Nat) : Chars :=
  { chars := chars, size := size, length := length, flags := { flags with isAscii := flags.isAscii && length == size } }

/-- The case of a number string; `uint32Buffer` says whether the caller has given a buffer. -/
def uint32Chars (flags : Flags) (uint32Buffer : Bool) (number : Nat) : Chars :=
  let size := ecmaStringGetUint32Size number
  finishChars { flags with rehashNeeded := true, isUint32 := true, mustBeFreed := flags.mustBeFreed || !uint32Buffer }
    (ecmaUint32ToUtf8String number) size (ecmaUint32ToUtf8String number).length

/-- The case of an external magic string. Its length is only computed for the ASCII check. -/
def exChars (flags : Flags) (id : Nat) : Chars :=
  let chars := litGetMagicStringExUtf8 context id
  finishChars { flags with rehashNeeded := true } chars chars.length
    (if flags.isAscii then litUtf8StringLength chars else 0)

/-- `ecma_string_get_chars`. -/
def ecmaStringGetChars (flags : Flags) (uint32Buffer : Bool) : EcmaString → Chars
  | .direct .magic id =>
    if context.magicStringCount ≤ id then exChars context flags (id - context.magicStringCount)
    else
      let chars := litGetMagicStringUtf8 context id
      finishChars { flags with rehashNeeded := true } chars chars.length chars.length
  | .direct .uint number => uint32Chars flags uint32Buffer number
  | .heap _ (.heapUtf8 _ size length buffer) => finishChars flags (buffer.take size.toNat) size.toNat length.toNat
  | .heap _ (.longOrExternal _ size length string) => finishChars flags (string.take size) size length
  | .heap _ (.heapAscii _ size buffer) =>
    finishChars flags (buffer.take (asciiStringGetSize size)) (asciiStringGetSize size) (asciiStringGetSize size)
  | .heap _ (.uint32InDesc number) => uint32Chars flags uint32Buffer number.toNat
  | .heap _ (.magicStringEx id) => exChars context flags (BitVec.ofNat 32 context.magicStringCount - id).toNat

/-! ## Equality -/

/-- `ecma_compare_get_string_chars`: the characters, the size and the length. -/
def ecmaCompareGetStringChars : Descriptor → Option (List Byte × Nat × Nat)
  | .heapUtf8 _ size length buffer => some (buffer, size.toNat, length.toNat)
  | .longOrExternal _ size length string => some (string, size, length)
  | .heapAscii _ size buffer => some (buffer, asciiStringGetSize size, asciiStringGetSize size)
  | .uint32InDesc _ | .magicStringEx _ => none

/-- `ecma_compare_ecma_strings_longpath`. -/
def ecmaCompareEcmaStringsLongpath (descriptor₁ descriptor₂ : Descriptor) : Bool :=
  match ecmaCompareGetStringChars descriptor₁, ecmaCompareGetStringChars descriptor₂ with
  | some (chars₁, size₁, length₁), some (chars₂, size₂, length₂) =>
    if size₁ ≠ size₂ ∨ length₁ ≠ length₂ then false
    else chars₁.head? == chars₂.head? && memcmp (chars₁.take size₁) (chars₂.take size₁) == .eq
  | _, _ => false

/-- `string1_p == string2_p`. -/
def samePointer : EcmaString → EcmaString → Bool
  | .direct type₁ value₁, .direct type₂ value₂ => type₁ == type₂ && value₁ == value₂
  | .heap address₁ _, .heap address₂ _ => address₁ == address₂
  | _, _ => false

/-- `ecma_compare_ecma_strings`. -/
def ecmaCompareEcmaStrings (string₁ string₂ : EcmaString) : Bool :=
  if samePointer string₁ string₂ then true
  else
    match string₁, string₂ with
    | .heap _ descriptor₁, .heap _ descriptor₂ =>
      if descriptor₁.hash ≠ descriptor₂.hash then false
      else if descriptor₁.isUint32InDesc then descriptor₂.isUint32InDesc
      else ecmaCompareEcmaStringsLongpath descriptor₁ descriptor₂
    | _, _ => false

end Strings
end JJS
