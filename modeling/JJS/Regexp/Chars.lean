import JJS.Lit.White
import JJS.Regexp.Bytecode
import JJS.Strings.ToUtf8

/-!
# JJS.Regexp.Chars

How the matcher reads the input (`ecma-regexp-object.c`): the next code unit or code point, the one before, and what a
class escape stands for. The input lies in the memory, and nothing stops a reader at its ends; an address where there
is nothing to read is not modelled, and the assertions are compiled out.
-/

namespace JJS
namespace Regexp

open Utf8 Lit Strings

/-! ## Case conversion -/

/-- What is looked up in `lit-unicode-conversions.inc.h` and `lit-unicode-folding.inc.h` for a character that is not
ASCII: the conversions, and the characters that are folded in another way than to lower case. -/
structure CaseTables where
  lower : CodePoint → CodePoint
  upper : CodePoint → CodePoint
  skipToLower : CodePoint → Bool
  toUpper : CodePoint → Bool

/-- The tables without `JJS_UNICODE_CASE_CONVERSION`: no character but an ASCII one is converted. -/
def asciiTables : CaseTables where
  lower := id
  upper := id
  skipToLower := fun _ => false
  toUpper := fun _ => false

/-- `LIT_MULTIPLE_CU`. -/
def litMultipleCu : CodePoint := 0xfffffffe#32

/-- `LIT_INVALID_CP`. -/
def litInvalidCp : CodePoint := 0xffffffff#32

section

variable (tables : CaseTables)

/-- `lit_char_to_lower_case`, without a builder. -/
def litCharToLowerCase (cp : CodePoint) : CodePoint :=
  if cp ≤ 0x7f#32 then if 0x41#32 ≤ cp ∧ cp ≤ 0x5a#32 then cp + (0x61#32 - 0x41#32) else cp else tables.lower cp

/-- `lit_char_to_upper_case`, without a builder. -/
def litCharToUpperCase (cp : CodePoint) : CodePoint :=
  if cp ≤ 0x7f#32 then if 0x61#32 ≤ cp ∧ cp ≤ 0x7a#32 then cp - (0x61#32 - 0x41#32) else cp else tables.upper cp

/-- `lit_char_fold_to_lower`. -/
def litCharFoldToLower (cp : CodePoint) : Bool :=
  decide (cp ≤ 0x7f#32) || decide (0xffff#32 < cp) || !tables.skipToLower cp

/-- `lit_char_fold_to_upper`. -/
def litCharFoldToUpper (cp : CodePoint) : Bool :=
  decide (0x7f#32 < cp) && decide (cp ≤ 0xffff#32) && tables.toUpper cp

/-- `ecma_regexp_canonicalize_char`. -/
def ecmaRegexpCanonicalizeChar (ch : CodePoint) (unicode : Bool) : CodePoint :=
  if unicode then
    let ch := if litCharFoldToUpper tables ch then litCharToUpperCase tables ch else ch
    if litCharFoldToLower tables ch then litCharToLowerCase tables ch else ch
  else
    let cu := litCharToUpperCase tables ch
    if ch ≤ 0x7f#32 ∨ (0x7f#32 < cu ∧ cu ≠ litMultipleCu) then cu else ch

/-- `ecma_regexp_canonicalize`. -/
def ecmaRegexpCanonicalize (ch : CodePoint) (flags : Flags) : CodePoint :=
  if flags.ignoreCase then ecmaRegexpCanonicalizeChar tables ch flags.unicode else ch

end

/-! ## Class escapes -/

/-- `ecma_class_escape_t`. -/
inductive ClassEscape where
  | digit
  | notDigit
  | wordChar
  | notWordChar
  | whitespace
  | notWhitespace
  deriving DecidableEq

/-- The escapes in the order of the enumeration. -/
def ClassEscape.all : List ClassEscape := [digit, notDigit, wordChar, notWordChar, whitespace, notWhitespace]

/-- `(uint8_t) escape`. -/
def ClassEscape.toByte (escape : ClassEscape) : Byte := BitVec.ofNat 8 (ClassEscape.all.idxOf escape)

/-- `(ecma_class_escape_t) byte`. -/
def ClassEscape.ofByte (b : Byte) : Option ClassEscape := ClassEscape.all[b.toNat]?

/-- `lit_char_is_word_char`. -/
def litCharIsWordChar (c : CodePoint) : Bool :=
  (decide (0x61#32 ≤ c) && decide (c ≤ 0x7a#32)) || (decide (0x41#32 ≤ c) && decide (c ≤ 0x5a#32)) ||
    (decide (0x30#32 ≤ c) && decide (c ≤ 0x39#32)) || c == 0x5f#32

/-- `ecma_regexp_check_class_escape`. -/
def ecmaRegexpCheckClassEscape (cp : CodePoint) : ClassEscape → Bool
  | .digit => decide (0x30#32 ≤ cp) && decide (cp ≤ 0x39#32)
  | .notDigit => decide (cp < 0x30#32) || decide (0x39#32 < cp)
  | .wordChar => litCharIsWordChar cp
  | .notWordChar => !litCharIsWordChar cp
  | .whitespace => litCharIsWhiteSpace (cp.setWidth 16)
  | .notWhitespace => !litCharIsWhiteSpace (cp.setWidth 16)

/-- `lit_char_is_line_terminator`. -/
def litCharIsLineTerminator (c : CodeUnit) : Bool :=
  c == 0x0a#16 || c == 0x0d#16 || c == 0x2028#16 || c == 0x2029#16

/-! ## The readers -/

/-- The memory with the input in it. There is nothing at the null address. -/
structure Subject where
  memory : Nat → Byte
  inputStart : Nat
  inputEnd : Nat
  start_pos : 0 < inputStart
  start_le : inputStart ≤ inputEnd

/-- An input at address 8. -/
def inputAt8 (bytes : List Byte) : Subject where
  memory := fun a => if a < 8 then 0#8 else bytes.getD (a - 8) 0#8
  inputStart := 8
  inputEnd := 8 + bytes.length
  start_pos := by decide
  start_le := Nat.le_add_right _ _

section

variable (memory : Nat → Byte)

/-- `lit_cesu8_read_next`: the code unit, and the address behind. -/
def litCesu8ReadNext (p : Nat) : CodeUnit × Nat :=
  let c := memory p
  if c &&& 0x80#8 = 0#8 then ((c &&& 0x7f#8).setWidth 16, p + 1)
  else if c &&& 0xe0#8 = 0xc0#8 then
    ((addExtraByte ((c &&& 0x1f#8).setWidth 32) (memory (p + 1))).setWidth 16, p + 2)
  else
    ((addExtraByte (addExtraByte ((c &&& 0x0f#8).setWidth 32) (memory (p + 1))) (memory (p + 2))).setWidth 16, p + 3)

/-- `lit_cesu8_peek_next`. -/
def litCesu8PeekNext (p : Nat) : CodeUnit := (litCesu8ReadNext memory p).1

/-- `lit_utf8_decr`, which stops at the lowest address at the latest. -/
def utf8Decr : Nat → Nat
  | 0 => 0
  | p + 1 => if isExtraByte (memory p) then utf8Decr p else p

/-- `lit_cesu8_read_prev`: the code unit before, and its address. -/
def cesu8ReadPrev (p : Nat) : CodeUnit × Nat := (litCesu8PeekNext memory (utf8Decr memory p), utf8Decr memory p)

/-- `lit_cesu8_peek_prev`. -/
def litCesu8PeekPrev (p : Nat) : CodeUnit := litCesu8PeekNext memory (utf8Decr memory p)

/-- `ecma_regexp_unicode_advance`: the code point, and the address behind. -/
def ecmaRegexpUnicodeAdvance (str endP : Nat) : CodePoint × Nat :=
  let (ch, current) := litCesu8ReadNext memory str
  if litIsHighSurrogate ch ∧ current < endP then
    let nextCh := litCesu8PeekNext memory current
    if litIsLowSurrogate nextCh then (litConvertSurrogatePairToCodePoint ch nextCh, current + 3)
    else (ch.setWidth 32, current)
  else (ch.setWidth 32, current)

/-- `ecma_regexp_step_back`. -/
def ecmaRegexpStepBack (flags : Flags) (str : Nat) : Nat :=
  let (ch, str) := cesu8ReadPrev memory str
  if flags.unicode ∧ litIsLowSurrogate ch ∧ litIsHighSurrogate (litCesu8PeekPrev memory str) then str - 3 else str

/-- The lowest address that `ecma_regexp_step_back` reads. -/
def stepBackLowest (flags : Flags) (str : Nat) : Nat :=
  let (ch, str) := cesu8ReadPrev memory str
  if flags.unicode ∧ litIsLowSurrogate ch then utf8Decr memory str else str

end

section

variable (tables : CaseTables) (flags : Flags) (subject : Subject)

/-- `ecma_regexp_advance`. In full unicode mode it pairs surrogates as `ecma_regexp_unicode_advance` does. -/
def ecmaRegexpAdvance (str : Nat) : CodePoint × Nat :=
  let (cp, str) :=
    if flags.unicode then ecmaRegexpUnicodeAdvance subject.memory str subject.inputEnd
    else
      let (ch, str) := litCesu8ReadNext subject.memory str
      (ch.setWidth 32, str)
  (ecmaRegexpCanonicalize tables cp flags, str)

/-- `ecma_regexp_is_word_boundary`. -/
def ecmaRegexpIsWordBoundary (str : Nat) : Bool :=
  let leftCp :=
    if str ≤ subject.inputStart then litInvalidCp
    else if flags.unicode ∧ flags.ignoreCase then
      (ecmaRegexpAdvance tables flags subject (ecmaRegexpStepBack subject.memory flags str)).1
    else (subject.memory (str - 1)).setWidth 32
  let rightCp :=
    if subject.inputEnd ≤ str then litInvalidCp
    else if flags.unicode ∧ flags.ignoreCase then (ecmaRegexpAdvance tables flags subject str).1
    else (subject.memory str).setWidth 32
  litCharIsWordChar leftCp != litCharIsWordChar rightCp

end

end Regexp
end JJS
