import JJS.Json.Parse

/-!
# JJS.Json.Stringify

`JSON.stringify` from `ecma-builtin-json.c` for values without `toJSON` and without a replacer: the quoting of
strings, `serialize_object` and `serialize_array` with their builder that is reverted to remembered sizes, and
`serialize_property`.

A value is a finite tree, so the stack of occurrences, which only looks for cycles, is left out. The members of
an object are in the order of `ecma_op_object_get_enumerable_property_names`. `ecma_op_to_string` of a number is
a parameter; it is null for the numbers that are not finite.
-/

namespace JJS
namespace Json

open Utf8 Lit

/-- A JavaScript value. -/
inductive Node (ν : Type) where
  | undefined
  | null
  | bool (b : Bool)
  | number (x : ν)
  | string (us : List CodeUnit)
  | array (elements : List (Node ν))
  | object (members : List (List CodeUnit × Node ν))

/-! ## Quoting -/

/-- The switch over the characters that are escaped. -/
def escapeText (c : CodeUnit) : Str :=
  if c = 0x08#16 then [0x5c#8, 0x62#8]
  else if c = 0x0c#16 then [0x5c#8, 0x66#8]
  else if c = 0x0a#16 then [0x5c#8, 0x6e#8]
  else if c = 0x0d#16 then [0x5c#8, 0x72#8]
  else if c = 0x09#16 then [0x5c#8, 0x74#8]
  else litCharUnicodeEscape c

/-- `str_p < str_end_p`, and the next code unit is a low surrogate. -/
def lowAhead (s : List Byte) : Bool :=
  match litReadCodeUnitFromCesu8 s with
  | some (_, next) => litIsLowSurrogate next
  | none => false

/-- The loop of `ecma_builtin_json_quote`: the builder, the bytes from `regular_str_start_p` to `str_p`, and
what is left of the string. The null case is a failed assertion. -/
def quoteLoop : Nat → Str → Str → List Byte → Option Str
  | _, builder, regular, [] => some (builder ++ regular)
  | 0, _, _, _ :: _ => none
  | fuel + 1, builder, regular, b :: s =>
    match litReadCodeUnitFromCesu8 (b :: s) with
    | none => none
    | some (size, c) =>
      let read := (b :: s).take size
      let rest := (b :: s).drop size
      if litIsHighSurrogate c && lowAhead rest then
        quoteLoop fuel builder (regular ++ read ++ rest.take 3) (rest.drop 3)
      else
        let shouldEscape := litIsHighSurrogate c || litIsLowSurrogate c
        let regular := regular ++ read
        if c = 0x5c#16 ∨ c = 0x22#16 then
          quoteLoop fuel (builder ++ regular.take (regular.length - 1) ++ [0x5c#8, c.setWidth 8]) [] rest
        else if c < 0x20#16 ∨ shouldEscape then
          let offset := if shouldEscape then 3 else 1
          quoteLoop fuel (builder ++ regular.take (regular.length - offset) ++ escapeText c) [] rest
        else quoteLoop fuel builder regular rest

/-- `ecma_builtin_json_quote`: what is appended to the builder. -/
def quote (s : Str) : Option Str :=
  (quoteLoop s.length [0x22#8] [] s).map fun r => r ++ [0x22#8]

/-! ## Serializing -/

/-- The builders and the gap of `ecma_json_stringify_context_t`. -/
structure Context where
  result : Str
  indent : Str
  gap : Str

/-- `ecma_stringbuilder_append_raw` to the result. -/
def Context.append (c : Context) (s : Str) : Context := { c with result := c.result ++ s }

/-- `ecma_stringbuilder_revert` of the result. -/
def Context.revert (c : Context) (size : Nat) : Context := { c with result := c.result.take size }

/-- `s`, when the gap is not empty. -/
def Context.ifGap (c : Context) (s : Str) : Str := if c.gap ≠ [] then s else []

/-- The steps 3 and 4 of both serializers, and the opening bracket. -/
def Context.opened (c : Context) (b : Byte) : Context :=
  { c with indent := c.indent ++ c.gap, result := c.result ++ [b] }

/-- The closing bracket, and the indent as it was. -/
def Context.closed (c : Context) (b : Byte) (stepbackSize : Nat) : Context :=
  { c with result := c.result ++ [b], indent := c.indent.take stepbackSize }

section

variable {ν : Type} (numberToString : ν → Option Str)

mutual

/-- `ecma_builtin_json_serialize_property` of the value: false for `ECMA_VALUE_UNDEFINED`, true for
`ECMA_VALUE_EMPTY`. -/
def serializeProperty : Node ν → Context → Option (Bool × Context)
  | .undefined, c => some (false, c)
  | .null, c => some (true, c.append [0x6e#8, 0x75#8, 0x6c#8, 0x6c#8])
  | .bool true, c => some (true, c.append [0x74#8, 0x72#8, 0x75#8, 0x65#8])
  | .bool false, c => some (true, c.append [0x66#8, 0x61#8, 0x6c#8, 0x73#8, 0x65#8])
  | .string us, c => (quote (cesu8 us)).map fun q => (true, c.append q)
  | .number x, c =>
    match numberToString x with
    | some s => some (true, c.append s)
    | none => some (true, c.append [0x6e#8, 0x75#8, 0x6c#8, 0x6c#8])
  | .array elements, c =>
    let c1 := c.opened 0x5b#8
    match serializeElements elements c1.indent.length c1.result.length c1 with
    | none => none
    | some (lastProp, c2) =>
      let c3 := c2.revert lastProp
      let c4 := if lastProp ≠ c1.result.length then c3.append (c3.ifGap (c3.indent.take c.indent.length)) else c3
      some (true, c4.closed 0x5d#8 c.indent.length)
  | .object members, c =>
    let c1 := c.opened 0x7b#8
    match serializeMembers members c1.indent.length c1.result.length c1 with
    | none => none
    | some (lastProp, c2) =>
      let c4 :=
        if lastProp ≠ c1.result.length then
          let c3 := c2.revert (lastProp - 1)
          c3.append (c3.ifGap (c3.indent.take c.indent.length))
        else c2
      some (true, c4.closed 0x7d#8 c.indent.length)

/-- The loop of `ecma_builtin_json_serialize_array`, with `last_prop`. -/
def serializeElements : List (Node ν) → Nat → Nat → Context → Option (Nat × Context)
  | [], _, lastProp, c => some (lastProp, c)
  | v :: vs, separatorSize, _, c =>
    match serializeProperty v (c.append (c.ifGap (c.indent.take separatorSize))) with
    | none => none
    | some (appended, c1) =>
      let c2 := if appended then c1 else c1.append [0x6e#8, 0x75#8, 0x6c#8, 0x6c#8]
      serializeElements vs separatorSize c2.result.length (c2.append [0x2c#8])

/-- The loop of `ecma_builtin_json_serialize_object`, with `last_prop`. -/
def serializeMembers : List (List CodeUnit × Node ν) → Nat → Nat → Context → Option (Nat × Context)
  | [], _, lastProp, c => some (lastProp, c)
  | (key, v) :: ms, separatorSize, lastProp, c =>
    match quote (cesu8 key) with
    | none => none
    | some q =>
      let c1 := ((c.append (c.ifGap (c.indent.take separatorSize))).append q).append [0x3a#8]
      match serializeProperty v (c1.append (c1.ifGap [0x20#8])) with
      | none => none
      | some (true, c2) =>
        let c3 := c2.append [0x2c#8]
        serializeMembers ms separatorSize c3.result.length c3
      | some (false, c2) => serializeMembers ms separatorSize lastProp (c2.revert lastProp)

end

/-- `ecma_builtin_json_str_helper`: the text, or null for undefined. The outer null is a failed assertion. -/
def stringify (gap : Str) (v : Node ν) : Option (Option Str) :=
  match serializeProperty numberToString v ⟨[], if gap ≠ [] then [0x0a#8] else [], gap⟩ with
  | none => none
  | some (false, _) => some none
  | some (true, c) => some (some c.result)

end

end Json
end JJS
