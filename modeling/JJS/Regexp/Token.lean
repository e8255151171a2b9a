import JJS.Regexp.Chars
import JJS.Strings.Basic

/-!
# JJS.Regexp.Token

The tokens of a pattern (`re-parser.c`): quantifiers, escapes and the rest. The pattern is read from the front; the
byte code plays no part in it.
-/

namespace JJS
namespace Regexp

open Utf8 Lit Strings

/-- What `ecma_raise_syntax_error` is called with. -/
inductive SyntaxError where
  | minGreaterThanMax
  | invalidEscapeSequence
  | invalidControlEscapeSequence
  | invalidHexEscapeSequence
  | invalidUnicodeEscapeSequence
  | invalidEscape
  | unterminatedGroup
  | invalidGroup
  | unterminatedCharacterClass
  | invalidQuantifier
  | nothingToRepeat
  | loneQuantifierBracket
  | rangeOutOfOrderInCharacterClass
  | invalidCharacterClass
  | unmatchedCloseBracket
  | unexpectedEndOfPattern
  deriving DecidableEq

/-- Why there is no byte code. -/
inductive Failure where
  | syntaxError (error : SyntaxError)
  /-- The allocator has no block of the size. -/
  | outOfMemory
  /-- A read outside the pattern. -/
  | outside
  /-- The bound on the number of steps was too small. -/
  | steps

/-- `re_token_type_t`. -/
inductive TokenType where
  | eof
  | backreference
  | char
  | alternative
  | assertStart
  | assertEnd
  | period
  | startCaptureGroup
  | startNonCaptureGroup
  | endGroup
  | assertLookahead
  | assertWordBoundary
  | assertNotWordBoundary
  | classEscape
  | charClass
  deriving DecidableEq

/-- `re_token_t`. -/
structure Token where
  type : TokenType
  value : CodePoint
  qmin : BitVec 32
  qmax : BitVec 32
  greedy : Bool

/-- The fields of `re_compiler_ctx_t` that reading a token looks at. The groups are counted when they are asked for. -/
structure Lexer where
  inputStart : List Byte
  inputCurr : List Byte
  groupsCount : Option Nat
  flags : Flags
  token : Token

/-- `RE_INFINITY`. -/
def reInfinity : BitVec 32 := 0xffffffff#32

/-- `lit_char_is_octal_digit`. -/
def litCharIsOctalDigit (c : Byte) : Bool := decide (0x30#8 ≤ c) && decide (c ≤ 0x37#8)

/-- The value of a decimal digit. -/
def digitValue (c : Byte) : BitVec 32 := c.setWidth 32 - 0x30#32

/-- The loop of `lit_parse_decimal`. -/
def parseDecimalLoop (value : BitVec 32) : List Byte → BitVec 32 × List Byte
  | [] => (value, [])
  | c :: rest =>
    if litCharIsDecimalDigit c then
      let newValue := value * 10#32 + digitValue c
      if 0xffffffff#32 / 10#32 < value ∨ newValue < value then parseDecimalLoop 0xffffffff#32 rest
      else parseDecimalLoop newValue rest
    else (value, c :: rest)

/-- `lit_parse_decimal`: the number, clamped, and what is behind it. -/
def litParseDecimal : List Byte → BitVec 32 × List Byte
  | [] => (0#32, [])
  | c :: rest => parseDecimalLoop (digitValue c) rest

/-- `lit_cesu8_read_next`, in the pattern. -/
def readInput (input : List Byte) : Except Failure (CodeUnit × List Byte) :=
  match litReadCodeUnitFromCesu8 input with
  | none => .error .outside
  | some (size, ch) => .ok (ch, input.drop size)

/-- What is behind a byte, when the input begins with it. -/
def behindByte (b : Byte) : List Byte → Option (List Byte)
  | [] => none
  | c :: rest => if c = b then some rest else none

/-! ## Quantifiers -/

/-- `re_parse_lazy_char`: whether the quantifier is greedy, and the rest. -/
def reParseLazyChar : List Byte → Bool × List Byte
  | [] => (true, [])
  | c :: rest => if c = 0x3f#8 then (false, rest) else (true, c :: rest)

/-- The braces of a quantifier, from behind the left one: the bounds and the rest. -/
def braceBounds : List Byte → Option (BitVec 32 × BitVec 32 × List Byte)
  | [] => none
  | c :: rest =>
    if !litCharIsDecimalDigit c then none
    else
      let (qmin, current) := litParseDecimal (c :: rest)
      match current with
      | [] => none
      | ch :: current =>
        if ch = 0x7d#8 then some (qmin, qmin, current)
        else if ch = 0x2c#8 then
          match current with
          | [] => none
          | d :: current =>
            let (qmax, current) :=
              if litCharIsDecimalDigit d then litParseDecimal (d :: current) else (reInfinity, d :: current)
            match current with
            | [] => none
            | close :: current => if close ≠ 0x7d#8 then none else some (qmin, qmax, current)
        else none

/-- The quantifier in front of the input: its bounds, and what is behind it. -/
def quantifierBounds : List Byte → Option (BitVec 32 × BitVec 32 × List Byte)
  | [] => none
  | c :: rest =>
    if c = 0x3f#8 then some (0#32, 1#32, rest)
    else if c = 0x2a#8 then some (0#32, reInfinity, rest)
    else if c = 0x2b#8 then some (1#32, reInfinity, rest)
    else if c = 0x7b#8 then braceBounds rest
    else none

/-- `re_parse_quantifier`. -/
def reParseQuantifier (l : Lexer) : Bool × Lexer :=
  match quantifierBounds l.inputCurr with
  | some (qmin, qmax, rest) =>
    let (greedy, rest) := reParseLazyChar rest
    (true, { l with inputCurr := rest, token := { l.token with qmin, qmax, greedy } })
  | none => (false, { l with token := { l.token with qmin := 1#32, qmax := 1#32, greedy := true } })

/-- `re_check_quantifier`. -/
def reCheckQuantifier (l : Lexer) : Except Failure Lexer :=
  if l.token.qmax < l.token.qmin then .error (.syntaxError .minGreaterThanMax) else .ok l

/-! ## Groups -/

/-- The loop of `re_count_groups`. The first argument bounds the number of steps. -/
def countGroupsLoop : Nat → Bool → List Byte → Nat
  | 0, _, _ => 0
  | _, _, [] => 0
  | steps + 1, isCharClass, c :: curr =>
    if c = 0x5c#8 then
      match curr with
      | [] => 0
      | e :: rest => countGroupsLoop steps isCharClass ((e :: rest).drop (litGetUnicodeCharSizeByUtf8FirstByte e))
    else if c = 0x5b#8 then countGroupsLoop steps true curr
    else if c = 0x5d#8 then countGroupsLoop steps false curr
    else if c = 0x28#8 then
      match curr with
      | [] => 0
      | e :: rest =>
        if e ≠ 0x3f#8 ∧ isCharClass = false then countGroupsLoop steps isCharClass (e :: rest) + 1
        else countGroupsLoop steps isCharClass (e :: rest)
    else countGroupsLoop steps isCharClass curr

/-- `re_count_groups`, of a whole pattern. -/
def reCountGroups (input : List Byte) : Nat := countGroupsLoop input.length false input

/-! ## Escapes -/

/-- `re_parse_octal`. -/
def reParseOctal : List Byte → BitVec 32 × List Byte
  | [] => (0#32, [])
  | c :: rest =>
    let (value, rest) :=
      match rest with
      | [] => (digitValue c, [])
      | d :: rest =>
        if litCharIsOctalDigit d then (digitValue c * 8#32 + digitValue d, rest) else (digitValue c, d :: rest)
    match rest with
    | [] => (value, [])
    | d :: rest =>
      if litCharIsOctalDigit d then
        let newValue := value * 8#32 + digitValue d
        if newValue ≤ 0xff#32 then (newValue, rest) else (value, d :: rest)
      else (value, d :: rest)

/-- `re_is_syntax_char`. -/
def reIsSyntaxChar (cp : CodePoint) : Bool :=
  cp == 0x5e#32 || cp == 0x24#32 || cp == 0x5c#32 || cp == 0x2e#32 || cp == 0x2a#32 || cp == 0x2b#32 ||
    cp == 0x3f#32 || cp == 0x28#32 || cp == 0x29#32 || cp == 0x5b#32 || cp == 0x5d#32 || cp == 0x7b#32 ||
    cp == 0x7d#32 || cp == 0x7c#32

/-- The loop over the digits between the braces of a Unicode escape. -/
def codePointDigits (cp : CodePoint) : List Byte → Except Failure (CodePoint × List Byte)
  | [] => .ok (cp, [])
  | c :: rest =>
    if litCharIsHexDigit c then
      let cp := cp * 16#32 + BitVec.ofNat 32 (litCharHexToInt c)
      if 0x10ffff#32 < cp then .error (.syntaxError .invalidUnicodeEscapeSequence) else codePointDigits cp rest
    else .ok (cp, c :: rest)

/-- A code point between braces, in full unicode mode. -/
def bracedCodePoint (input : List Byte) : Except Failure (CodePoint × List Byte) :=
  match behindByte 0x7b#8 input with
  | some (d :: rest) =>
    if litCharIsHexDigit d then do
      let (cp, rest) ← codePointDigits (BitVec.ofNat 32 (litCharHexToInt d)) rest
      match behindByte 0x7d#8 rest with
      | some rest => .ok (cp, rest)
      | none => .error (.syntaxError .invalidUnicodeEscapeSequence)
    else .error (.syntaxError .invalidUnicodeEscapeSequence)
  | _ => .error (.syntaxError .invalidUnicodeEscapeSequence)

/-- A low surrogate that is escaped behind a high one, in full unicode mode. -/
def escapedLowSurrogate (unicode : Bool) (high : BitVec 32) (rest : List Byte) : Option (CodePoint × List Byte) :=
  if unicode ∧ litIsHighSurrogate (high.setWidth 16) ∧ 6 ≤ rest.length ∧ rest[0]? = some 0x5c#8 ∧
      rest[1]? = some 0x75#8 then
    match litCharHexLookup (rest.drop 2) 4 with
    | some low =>
      if litIsLowSurrogate (BitVec.ofNat 16 low) then
        some (litConvertSurrogatePairToCodePoint (high.setWidth 16) (BitVec.ofNat 16 low), rest.drop 6)
      else none
    | none => none
  else none

/-- The token for a character. -/
def Lexer.charToken (l : Lexer) (value : CodePoint) (inputCurr : List Byte) : Lexer :=
  { l with inputCurr, token := { l.token with type := .char, value } }

/-- The token for a class escape. -/
def Lexer.escapeToken (l : Lexer) (escape : ClassEscape) (inputCurr : List Byte) : Lexer :=
  { l with inputCurr, token := { l.token with type := .classEscape, value := escape.toByte.setWidth 32 } }

/-- The escapes of `re_parse_char_escape` that begin with a decimal digit. -/
def parseDigitEscape (l : Lexer) (digit : Byte) (rest : List Byte) : Except Failure Lexer :=
  if digit = 0x30#8 ∧ (rest.head?.map litCharIsDecimalDigit).getD false = false then .ok (l.charToken 0#32 rest)
  else if l.flags.unicode then .error (.syntaxError .invalidEscapeSequence)
  else if litCharIsOctalDigit digit then
    let (value, rest) := reParseOctal (digit :: rest)
    .ok (l.charToken value rest)
  else .ok (l.charToken (digit.setWidth 32) rest)

/-- The escapes that begin with `c`. -/
def parseControlEscape (l : Lexer) (rest : List Byte) : Except Failure Lexer :=
  let other : Except Failure Lexer :=
    if l.flags.unicode then .error (.syntaxError .invalidControlEscapeSequence)
    else .ok (l.charToken 0x5c#32 (0x63#8 :: rest))
  match rest with
  | [] => other
  | ch :: rest =>
    if (0x41#8 ≤ ch ∧ ch ≤ 0x5a#8) ∨ (0x61#8 ≤ ch ∧ ch ≤ 0x7a#8) then
      .ok (l.charToken (BitVec.ofNat 32 (ch.toNat % 32)) rest)
    else other

/-- The escapes that begin with `x`. -/
def parseHexEscape (l : Lexer) (rest : List Byte) : Except Failure Lexer :=
  match litCharHexLookup rest 2 with
  | some value => .ok (l.charToken (BitVec.ofNat 32 value) (rest.drop 2))
  | none =>
    if l.flags.unicode then .error (.syntaxError .invalidHexEscapeSequence) else .ok (l.charToken 0x78#32 rest)

/-- The escapes that begin with `u`. -/
def parseUnicodeEscape (l : Lexer) (rest : List Byte) : Except Failure Lexer :=
  match litCharHexLookup rest 4 with
  | some value =>
    match escapedLowSurrogate l.flags.unicode (BitVec.ofNat 32 value) (rest.drop 4) with
    | some (cp, rest) => .ok (l.charToken cp rest)
    | none => .ok (l.charToken (BitVec.ofNat 32 value) (rest.drop 4))
  | none =>
    if l.flags.unicode then do
      let (cp, rest) ← bracedCodePoint rest
      .ok (l.charToken cp rest)
    else .ok (l.charToken 0x75#32 rest)

/-- `re_parse_char_escape`. -/
def reParseCharEscape (l : Lexer) : Except Failure Lexer :=
  match l.inputCurr with
  | [] => .error .outside
  | b :: rest =>
    if litCharIsDecimalDigit b then parseDigitEscape l b rest
    else do
      let (ch, rest) ← readInput (b :: rest)
      if ch = 0x64#16 then .ok (l.escapeToken .digit rest)
      else if ch = 0x44#16 then .ok (l.escapeToken .notDigit rest)
      else if ch = 0x73#16 then .ok (l.escapeToken .whitespace rest)
      else if ch = 0x53#16 then .ok (l.escapeToken .notWhitespace rest)
      else if ch = 0x77#16 then .ok (l.escapeToken .wordChar rest)
      else if ch = 0x57#16 then .ok (l.escapeToken .notWordChar rest)
      else if ch = 0x66#16 then .ok (l.charToken 0x0c#32 rest)
      else if ch = 0x6e#16 then .ok (l.charToken 0x0a#32 rest)
      else if ch = 0x72#16 then .ok (l.charToken 0x0d#32 rest)
      else if ch = 0x74#16 then .ok (l.charToken 0x09#32 rest)
      else if ch = 0x76#16 then .ok (l.charToken 0x0b#32 rest)
      else if ch = 0x63#16 then parseControlEscape l rest
      else if ch = 0x78#16 then parseHexEscape l rest
      else if ch = 0x75#16 then parseUnicodeEscape l rest
      else if l.flags.unicode ∧ ch ≠ 0x2f#16 ∧ reIsSyntaxChar (ch.setWidth 32) = false then
        .error (.syntaxError .invalidEscape)
      else .ok (l.charToken (ch.setWidth 32) rest)

/-! ## Tokens -/

/-- A token without a quantifier. -/
def Lexer.plainToken (l : Lexer) (type : TokenType) (inputCurr : List Byte) : Lexer :=
  { l with inputCurr, token := { l.token with type } }

/-- The end of `re_parse_next_token`: the quantifier. -/
def withQuantifier (l : Lexer) : Except Failure Lexer := reCheckQuantifier (reParseQuantifier l).2

/-- A backslash of `re_parse_next_token`. -/
def parseBackslash (l : Lexer) (rest : List Byte) : Except Failure Lexer :=
  match rest with
  | [] => .error (.syntaxError .invalidEscape)
  | b :: tail =>
    if 0x30#8 < b ∧ b ≤ 0x39#8 then
      let (value, digits) := litParseDecimal (b :: tail)
      let groupsCount := l.groupsCount.getD (reCountGroups l.inputStart)
      let l := { l with groupsCount := some groupsCount }
      if value ≤ BitVec.ofNat 32 groupsCount then
        withQuantifier { l with inputCurr := digits, token := { l.token with type := .backreference, value } }
      else parseEscape l b tail
    else parseEscape l b tail
where
  /-- The escapes other than a backreference. -/
  parseEscape (l : Lexer) (b : Byte) (tail : List Byte) : Except Failure Lexer :=
    if b = 0x62#8 then .ok (l.plainToken .assertWordBoundary tail)
    else if b = 0x42#8 then .ok (l.plainToken .assertNotWordBoundary tail)
    else do
      let l ← reParseCharEscape { l with inputCurr := b :: tail }
      withQuantifier l

/-- A left parenthesis of `re_parse_next_token`. -/
def parseLeftParen (l : Lexer) (rest : List Byte) : Except Failure Lexer :=
  match rest with
  | [] => .error (.syntaxError .unterminatedGroup)
  | b :: tail =>
    if b = 0x3f#8 then
      match tail with
      | [] => .error (.syntaxError .invalidGroup)
      | ch :: tail =>
        if ch = 0x3d#8 then
          .ok { l with inputCurr := tail, token := { l.token with type := .assertLookahead, value := 0#32 } }
        else if ch = 0x21#8 then
          .ok { l with inputCurr := tail, token := { l.token with type := .assertLookahead, value := 1#32 } }
        else if ch = 0x3a#8 then .ok (l.plainToken .startNonCaptureGroup tail)
        else .error (.syntaxError .invalidGroup)
    else .ok (l.plainToken .startCaptureGroup (b :: tail))

/-- A character that stands for itself, paired with the one behind it in full unicode mode. -/
def parsePlainChar (l : Lexer) (ch : CodeUnit) (rest : List Byte) : Except Failure Lexer :=
  if l.flags.unicode ∧ litIsHighSurrogate ch ∧ rest ≠ [] then do
    let (next, _) ← readInput rest
    if litIsLowSurrogate next then
      withQuantifier (l.charToken (litConvertSurrogatePairToCodePoint ch next) (rest.drop 3))
    else withQuantifier (l.charToken (ch.setWidth 32) rest)
  else withQuantifier (l.charToken (ch.setWidth 32) rest)

/-- `re_parse_next_token`. -/
def reParseNextToken (l : Lexer) : Except Failure Lexer :=
  match l.inputCurr with
  | [] => .ok (l.plainToken .eof [])
  | b :: input => do
    let (ch, rest) ← readInput (b :: input)
    if ch = 0x5e#16 then .ok (l.plainToken .assertStart rest)
    else if ch = 0x24#16 then .ok (l.plainToken .assertEnd rest)
    else if ch = 0x7c#16 then .ok (l.plainToken .alternative rest)
    else if ch = 0x2e#16 then withQuantifier (l.plainToken .period rest)
    else if ch = 0x5c#16 then parseBackslash { l with inputCurr := rest } rest
    else if ch = 0x28#16 then parseLeftParen l rest
    else if ch = 0x29#16 then .ok (l.plainToken .endGroup rest)
    else if ch = 0x5b#16 then
      if rest = [] then .error (.syntaxError .unterminatedCharacterClass) else .ok (l.plainToken .charClass rest)
    else if ch = 0x3f#16 ∨ ch = 0x2a#16 ∨ ch = 0x2b#16 then .error (.syntaxError .invalidQuantifier)
    else if ch = 0x7b#16 then
      if (reParseQuantifier l).1 then .error (.syntaxError .nothingToRepeat)
      else if l.flags.unicode then .error (.syntaxError .loneQuantifierBracket)
      else withQuantifier (l.charToken (ch.setWidth 32) rest)
    else if (ch = 0x5d#16 ∨ ch = 0x7d#16) ∧ l.flags.unicode then .error (.syntaxError .loneQuantifierBracket)
    else parsePlainChar l ch rest

end Regexp
end JJS
