import JJS.Lib.Ecma404
import JJS.Lit.Char

/-!
# JJS.Json.Parse

`JSON.parse` without a reviver, from `ecma-builtin-json.c`: the tokens (`parse_string`, `parse_number`,
`parse_next_token`), the recursive `parse_value` with its loops over members and elements, and
`parse_buffer`.

The pointers `current_p` and `end_p` are the list of the bytes that are left. Strings are the bytes of the
builder, and the conversion of a numeral (`ecma_utf8_string_to_number`) is a parameter.
-/

namespace JJS
namespace Json

open Utf8 OrderedMap Lit Ecma404

/-- A JavaScript string, in CESU-8. -/
abbrev Str := List Byte

/-- `ecma_json_token_type_t`, with the string or the number of the union. -/
inductive Token (ν : Type) where
  | invalid
  | done
  | number (x : ν)
  | string (s : Str)
  | null
  | true
  | false
  | leftBrace
  | rightBrace
  | leftSquare
  | rightSquare
  | comma
  | colon

/-! ## Tokens -/

/-- The cases of the switch over the byte after a backslash that append one byte. -/
def escapedByte (c : Byte) : Option Byte :=
  if c = 0x22#8 ∨ c = 0x2f#8 ∨ c = 0x5c#8 then some c
  else if c = 0x62#8 then some 0x08#8
  else if c = 0x66#8 then some 0x0c#8
  else if c = 0x6e#8 then some 0x0a#8
  else if c = 0x72#8 then some 0x0d#8
  else if c = 0x74#8 then some 0x09#8
  else none

/-- The loop of `ecma_builtin_json_parse_string`: the builder, the bytes from `unappended_p` to
`current_p`, and what is left. The null case is `invalid_string`; a four-byte character that is cut off
is a failed assertion. -/
def parseStringLoop (builder unappended : Str) : List Byte → Option (Str × List Byte)
  | [] => none
  | b :: s =>
    if b ≤ 0x1f#8 then none
    else if b = 0x22#8 then some (builder ++ unappended, s)
    else if 0xf0#8 ≤ b then
      match s with
      | b2 :: b3 :: b4 :: s =>
        match litReadCodePointFromUtf8 [b, b2, b3, b4] with
        | some (_, cp) => parseStringLoop (builder ++ unappended ++ litCodePointToCesu8Bytes cp) [] s
        | none => none
      | _ => none
    else if b = 0x5c#8 then
      match s with
      | [] => none
      | c :: s =>
        match escapedByte c with
        | some e => parseStringLoop (builder ++ unappended ++ [e]) [] s
        | none =>
          if c = 0x75#8 then
            match s with
            | h1 :: h2 :: h3 :: h4 :: s =>
              match litCharHexLookup [h1, h2, h3, h4] 4 with
              | some hex => parseStringLoop (builder ++ unappended ++ litCodePointToCesu8Bytes (BitVec.ofNat 32 hex)) [] s
              | none => none
            | _ => none
          else none
    else parseStringLoop builder (unappended ++ [b]) s

/-- The integer part of `ecma_builtin_json_parse_number`, after the sign. -/
def parseInteger (s : List Byte) : Option (List Byte) :=
  match s with
  | [] => none
  | c :: r =>
    if c = 0x30#8 then
      if r.head?.any litCharIsDecimalDigit then none else some r
    else if litCharIsDecimalDigit c then some (r.dropWhile litCharIsDecimalDigit)
    else some s

/-- The digits after the dot or in the exponent: there must be one. -/
def parseDigits (s : List Byte) : Option (List Byte) :=
  if s.head?.any litCharIsDecimalDigit then some (s.dropWhile litCharIsDecimalDigit) else none

/-- `if (current_p < end_p && *current_p == LIT_CHAR_DOT)`. -/
def parseFraction (s : List Byte) : Option (List Byte) :=
  match s with
  | [] => some s
  | c :: r => if c = 0x2e#8 then parseDigits r else some s

/-- The sign of the exponent is skipped. -/
def skipExponentSign (s : List Byte) : List Byte :=
  match s with
  | [] => s
  | c :: r => if c = 0x2b#8 ∨ c = 0x2d#8 then r else s

def parseExponent (s : List Byte) : Option (List Byte) :=
  match s with
  | [] => some s
  | c :: r => if c = 0x65#8 ∨ c = 0x45#8 then parseDigits (skipExponentSign r) else some s

/-- `if (*current_p == LIT_CHAR_MINUS)`. -/
def skipMinus (s : List Byte) : List Byte :=
  match s with
  | [] => s
  | c :: r => if c = 0x2d#8 then r else s

/-- Where `ecma_builtin_json_parse_number` stops: what is left after the numeral. -/
def parseNumeral (s : List Byte) : Option (List Byte) :=
  ((parseInteger (skipMinus s)).bind parseFraction).bind parseExponent

/-- `memcmp` of a magic string at the current position. -/
def afterMagic (magic s : List Byte) : Option (List Byte) :=
  if s.take magic.length = magic then some (s.drop magic.length) else none

def isJsonSpace (b : Byte) : Bool := b = 0x20#8 || b = 0x0d#8 || b = 0x0a#8 || b = 0x09#8

section

variable {ν : Type} (toNumber : List Byte → ν)

/-- `ecma_builtin_json_parse_number`: the numeral from `start_p` to `current_p`. -/
def parseNumber (s : List Byte) : Token ν × List Byte :=
  match parseNumeral s with
  | some r => (.number (toNumber (s.take (s.length - r.length))), r)
  | none => (.invalid, s)

/-- `ecma_builtin_json_parse_next_token`: the token and what is left. -/
def parseNextToken (parseString : Bool) (s : List Byte) : Token ν × List Byte :=
  match s.dropWhile isJsonSpace with
  | [] => (.done, s)
  | c :: r =>
    if c = 0x7b#8 then (.leftBrace, r)
    else if c = 0x7d#8 then (.rightBrace, r)
    else if c = 0x5b#8 then (.leftSquare, r)
    else if c = 0x5d#8 then (.rightSquare, r)
    else if c = 0x2c#8 then (.comma, r)
    else if c = 0x3a#8 then (.colon, r)
    else if c = 0x22#8 then
      if parseString then
        match parseStringLoop [] [] r with
        | some (str, r) => (.string str, r)
        | none => (.invalid, r)
      else (.invalid, s)
    else if c = 0x6e#8 then
      match afterMagic [0x6e#8, 0x75#8, 0x6c#8, 0x6c#8] (c :: r) with
      | some r => (.null, r)
      | none => (.invalid, s)
    else if c = 0x74#8 then
      match afterMagic [0x74#8, 0x72#8, 0x75#8, 0x65#8] (c :: r) with
      | some r => (.true, r)
      | none => (.invalid, s)
    else if c = 0x66#8 then
      match afterMagic [0x66#8, 0x61#8, 0x6c#8, 0x73#8, 0x65#8] (c :: r) with
      | some r => (.false, r)
      | none => (.invalid, s)
    else if c = 0x2d#8 ∨ litCharIsDecimalDigit c then parseNumber toNumber (c :: r)
    else (.invalid, s)

/-! ## Values -/

/-- Why there is no value: `ECMA_VALUE_EMPTY`, or the bound on the recursion of the model. -/
inductive NoValue where
  | empty
  | fuel

abbrev Value (ν : Type) := Tree Str ν

/-- `ecma_builtin_json_define_value_property`: `ecma_builtin_helper_def_prop` of a plain object. -/
def defineValueProperty (object : List (Str × Value ν)) (name : Str) (value : Value ν) : List (Str × Value ν) :=
  Table.setEntries object name value

mutual

/-- `ecma_builtin_json_parse_value`. -/
def parseValue : Nat → Token ν × List Byte → Except NoValue (Value ν × List Byte)
  | 0, _ => .error .fuel
  | fuel + 1, (token, s) =>
    match token with
    | .number x => .ok (.number x, s)
    | .string str => .ok (.string str, s)
    | .null => .ok (.null, s)
    | .true => .ok (.bool true, s)
    | .false => .ok (.bool false, s)
    | .leftBrace =>
      match parseNextToken toNumber true s with
      | (.rightBrace, s) => .ok (.object [], s)
      | next => parseMembers fuel [] next
    | .leftSquare =>
      match parseNextToken toNumber true s with
      | (.rightSquare, s) => .ok (.array [], s)
      | next => parseElements fuel [] next
    | _ => .error .empty

/-- The loop over the members of an object. -/
def parseMembers : Nat → List (Str × Value ν) → Token ν × List Byte → Except NoValue (Value ν × List Byte)
  | 0, _, _ => .error .fuel
  | fuel + 1, object, (token, s) =>
    match token with
    | .string name =>
      match parseNextToken toNumber false s with
      | (.colon, s) =>
        match parseValue fuel (parseNextToken toNumber true s) with
        | .error e => .error e
        | .ok (value, s) =>
          match parseNextToken toNumber false s with
          | (.rightBrace, s) => .ok (.object (defineValueProperty object name value), s)
          | (.comma, s) => parseMembers fuel (defineValueProperty object name value) (parseNextToken toNumber true s)
          | _ => .error .empty
      | _ => .error .empty
    | _ => .error .empty

/-- The loop over the elements of an array; the next index is the length of `array`. -/
def parseElements : Nat → List (Value ν) → Token ν × List Byte → Except NoValue (Value ν × List Byte)
  | 0, _, _ => .error .fuel
  | fuel + 1, array, next =>
    match parseValue fuel next with
    | .error e => .error e
    | .ok (value, s) =>
      match parseNextToken toNumber false s with
      | (.rightSquare, s) => .ok (.array (array ++ [value]), s)
      | (.comma, s) => parseElements fuel (array ++ [value]) (parseNextToken toNumber true s)
      | _ => .error .empty

end

/-- The result of `ecma_builtin_json_parse_buffer`. -/
inductive Parsed (ν : Type) where
  | value (v : Value ν)
  | syntaxError
  | fuel

/-- `ecma_builtin_json_parse_buffer`. The recursion makes at most two calls for a byte of the buffer. -/
def parseBuffer (s : List Byte) : Parsed ν :=
  match parseValue toNumber (2 * s.length + 3) (parseNextToken toNumber true s) with
  | .ok (v, r) =>
    match parseNextToken toNumber false r with
    | (.done, _) => .value v
    | _ => .syntaxError
  | .error .empty => .syntaxError
  | .error .fuel => .fuel

end

end Json
end JJS
