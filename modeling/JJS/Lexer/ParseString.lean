import JJS.Strings.ToUtf8

/-!
# JJS.Lexer.ParseString

The first pass over a string literal or a part of a template, `lexer_parse_string` of `js-lexer.c`. It finds the end,
and measures the characters that `lexer_convert_literal_to_chars` writes later. In raw mode the measure is taken from
the source text.
-/

namespace JJS
namespace Lexer

open Utf8 Lit Strings

/-- `parser_line_counter_t`. -/
abbrev LineCounter := BitVec 32

/-- `lexer_string_options_t`. -/
inductive LexerStringOptions where
  | noOpts
  | raw
deriving DecidableEq

/-- The flags of `lexer_lit_location_flags_t` that the pass sets. -/
inductive LitLocationFlags where
  | isAscii
  | hasEscape
deriving DecidableEq

inductive ParserError where
  | unterminatedString
  | templateStrOctalEscape
  | octalEscapeNotAllowed
  | invalidUnicodeEscapeSequence
  | newlineNotAllowed
  | stringTooLong
deriving DecidableEq

/-- `parser_raise_error`, and the line and column of the token where they are set before. -/
structure Raised where
  error : ParserError
  position : Option (LineCounter × LineCounter)
deriving DecidableEq

inductive TokenType where
  | literal
  | templateLiteral
deriving DecidableEq

/-- What the pass reads of the parser context. The source begins with the character at `source_p`. -/
structure ParserContext where
  source : List Byte
  line : LineCounter
  column : LineCounter
  isStrict : Bool
  cpointer32Bit : Bool

/-- What the pass leaves in the parser context. `last` is `source_p[-1]`, by which the callers tell the end of a
template from a substitution. -/
structure Token where
  type : TokenType
  charP : List Byte
  length : Nat
  statusFlags : LitLocationFlags
  source : List Byte
  last : Byte
  line : LineCounter
  column : LineCounter
  has4ByteMarker : Bool
deriving DecidableEq

/-- `PARSER_MAXIMUM_STRING_LENGTH`. -/
def parserMaximumStringLength (cpointer32Bit : Bool) : Nat := if cpointer32Bit then 2147483647 else 65535

/-- `align_column_to_tab`. -/
def alignColumnToTab (column : LineCounter) : LineCounter := ((column + (8#32 - 1#32)) &&& ~~~ 0x7#32) + 1#32

/-- `LEXER_NEWLINE_LS_PS_BYTE_1` and `LEXER_NEWLINE_LS_PS_BYTE_23`. What lies behind the end is not read: whatever is
there, the literal is not terminated. -/
def isNewlineLsPs : List Byte → Bool
  | a :: b :: c :: _ => a == 0xe2#8 && b == 0x80#8 && c ||| 0x1#8 == 0xa9#8
  | _ => false

/-! ## Escapes -/

/-- The value of a digit in `lexer_hex_to_code_point`. -/
def hexByte (byte : Byte) : Option Nat :=
  if 0x30#8 ≤ byte ∧ byte ≤ 0x39#8 then some (byte.toNat - 0x30)
  else if 0x61#8 ≤ lexerToAsciiLowercase byte ∧ lexerToAsciiLowercase byte ≤ 0x66#8 then
    some ((lexerToAsciiLowercase byte).toNat - (0x61 - 10))
  else none

/-- `lexer_hex_to_code_point`; the callers make sure that the digits are there. -/
def lexerHexToCodePoint : Nat → Nat → List Byte → Option Nat
  | 0, result, _ => some result
  | _ + 1, _, [] => none
  | length + 1, result, byte :: s =>
    match hexByte byte with
    | some digit => lexerHexToCodePoint length (result * 16 + digit) s
    | none => none

/-- `lexer_hex_in_braces_to_code_point`: the code point and the length of the sequence. -/
def lexerHexInBracesToCodePoint : Nat → Nat → List Byte → Option (Nat × Nat)
  | _, _, [] => none
  | result, length, byte :: s =>
    match hexByte byte with
    | none => none
    | some digit =>
      if result * 16 + digit ≥ 0x10ffff + 1 then none
      else
        match s with
        | [] => none
        | c :: s =>
          if c ≠ 0x7d#8 then lexerHexInBracesToCodePoint (result * 16 + digit) (length + 1) (c :: s)
          else some (result * 16 + digit, length + 1)

/-- `lit_code_point_get_cesu8_length`. -/
def litCodePointGetCesu8Length (codePoint : Nat) : Nat :=
  if codePoint < 0x80 then 1 else if codePoint < 0x800 then 2 else if codePoint < 0x10000 then 3 else 2 * 3

/-- The code point of the escape that begins with `x` or `u`, and the number of bytes from there on. -/
def unicodeEscape : List Byte → Option (Nat × Nat)
  | [] => none
  | c :: s =>
    let escapeLength := if c = 0x78#8 then 3 else 5
    if 4 ≤ s.length + 1 ∧ c = 0x75#8 ∧ s.head? = some 0x7b#8 then
      (lexerHexInBracesToCodePoint 0 4 s.tail).map fun r => (r.1, r.2 - 1)
    else if escapeLength ≤ s.length + 1 then
      (lexerHexToCodePoint (escapeLength - 1) 0 s).map fun codePoint => (codePoint, escapeLength)
    else none

def isOctalDigit (b : Byte) : Bool := decide (0x30#8 ≤ b) && decide (b ≤ 0x37#8)

/-- The number of octal digits at the front, at most so many. -/
def octalCount : Nat → List Byte → Nat
  | 0, _ => 0
  | _ + 1, [] => 0
  | n + 1, b :: s => if isOctalDigit b then octalCount n s + 1 else 0

/-! ## The loop -/

/-- The local variables of the pass. -/
structure Scan where
  source : List Byte
  line : LineCounter
  column : LineCounter
  length : Nat
  rawLengthAdjust : Int
  statusFlags : LitLocationFlags
  has4ByteMarker : Bool
deriving DecidableEq

/-- A round of the loop goes on, or ends it with the bytes from `source_p` on. -/
inductive Round where
  | next (scan : Scan)
  | done (scan : Scan)
deriving DecidableEq

namespace Scan

/-- A newline: the column is the first one again. -/
def newline (scan : Scan) (source : List Byte) : Scan :=
  { scan with source := source, line := scan.line + 1, column := 1 }

/-- The last lines of the loop: a character with the bytes that continue it. -/
def skipCharacter (scan : Scan) (s : List Byte) : Scan :=
  { scan with
    source := s.dropWhile isExtraByte
    column := scan.column + 1
    length := scan.length + 1 + (s.takeWhile isExtraByte).length }

end Scan

/-- The newline after a backslash: what follows it, and the change of `raw_length_adjust`. -/
def lineContinuation : List Byte → Option (List Byte × Int)
  | [] => none
  | c :: s =>
    if c = 0x0d#8 then if s.head? = some 0x0a#8 then some (s.tail, -1) else some (s, 0)
    else if c = 0x0a#8 then some (s, 0)
    else if isNewlineLsPs (c :: s) then some (s.drop 2, 0)
    else none

/-- The part of the loop for a character that is neither an end nor a special escape. `c` stands at `source_p` and `s`
follows. -/
def plainRound (strEndCharacter : Byte) (scan : Scan) (c : Byte) (s : List Byte) : Except Raised Round :=
  if 0xf0#8 ≤ c then
    .ok (.next { scan with
      source := s.drop 3
      length := scan.length + 2 * 3
      statusFlags := .hasEscape
      rawLengthAdjust := scan.rawLengthAdjust + 2
      column := scan.column + 1
      has4ByteMarker := true })
  else if c = 0x09#8 then
    .ok (.next ({ scan with column := alignColumnToTab scan.column - 1 }.skipCharacter s))
  else if isNewlineLsPs (c :: s) then
    .ok (.next { scan.newline (s.drop 2) with length := scan.length + 3 })
  else if strEndCharacter = 0x60#8 then
    if c = 0x0d#8 then
      if s.head? = some 0x0a#8 then
        .ok (.next { scan.newline s.tail with
          length := scan.length + 1
          statusFlags := .hasEscape
          rawLengthAdjust := scan.rawLengthAdjust - 1 })
      else .ok (.next { scan.newline s with length := scan.length + 1, statusFlags := .hasEscape })
    else if c = 0x0a#8 then .ok (.next { scan.newline s with length := scan.length + 1 })
    else .ok (.next (scan.skipCharacter s))
  else if c = 0x0d#8 ∨ c = 0x0a#8 then .error ⟨.newlineNotAllowed, some (scan.line, scan.column)⟩
  else .ok (.next (scan.skipCharacter s))

/-- The escapes that raw mode does not know: `c` stands after the backslash. -/
def cookedEscapeRound (isStrict : Bool) (strEndCharacter : Byte) (scan : Scan) (c : Byte) (s : List Byte) :
    Except Raised Round :=
  if c = 0x30#8 ∧ s.head?.any fun d => decide (d < 0x30#8) || decide (0x39#8 < d) then
    .ok (.next { scan with source := s, column := scan.column + 1, length := scan.length + 1 })
  else if 0x30#8 ≤ c ∧ c ≤ 0x33#8 then
    if strEndCharacter = 0x60#8 then .error ⟨.templateStrOctalEscape, none⟩
    else if isStrict then .error ⟨.octalEscapeNotAllowed, none⟩
    else
      let count := octalCount 2 s
      .ok (.next { scan with
        source := s.drop count
        column := scan.column + 1 + BitVec.ofNat 32 count
        length := scan.length + (if count = 2 ∧ 0x32#8 ≤ c then 1 else 0) + 1 })
  else if 0x34#8 ≤ c ∧ c ≤ 0x37#8 then
    if isStrict then .error ⟨.octalEscapeNotAllowed, none⟩
    else
      let count := octalCount 1 s
      .ok (.next { scan with
        source := s.drop count
        column := scan.column + 1 + BitVec.ofNat 32 count
        length := scan.length + 1 })
  else if c = 0x78#8 ∨ c = 0x75#8 then
    match unicodeEscape (c :: s) with
    | none => .error ⟨.invalidUnicodeEscapeSequence, some (scan.line, scan.column - 1)⟩
    | some (codePoint, escapeLength) =>
      .ok (.next { scan with
        source := (c :: s).drop escapeLength
        length := scan.length + litCodePointGetCesu8Length codePoint
        column := scan.column + BitVec.ofNat 32 escapeLength })
  else plainRound strEndCharacter scan c s

/-- The part of the loop after a backslash; `scan` stands behind it. -/
def escapeRound (isStrict : Bool) (opts : LexerStringOptions) (strEndCharacter : Byte) (scan : Scan) :
    Except Raised Round :=
  match scan.source with
  | [] => .ok (.next scan)
  | c :: s =>
    let scan := { scan with statusFlags := .hasEscape }
    match lineContinuation (c :: s) with
    | some (rest, adjust) =>
      .ok (.next { scan.newline rest with rawLengthAdjust := scan.rawLengthAdjust + adjust })
    | none =>
      match opts with
      | .raw =>
        if c = 0x60#8 ∨ c = 0x5c#8 then
          .ok (.next { scan with source := s, column := scan.column + 1, length := scan.length + 1 })
        else .ok (.next scan)
      | .noOpts => cookedEscapeRound isStrict strEndCharacter scan c s

/-- A round of the loop. The first position is the one of the literal. -/
def parseStringRound (start : LineCounter × LineCounter) (isStrict : Bool) (opts : LexerStringOptions)
    (strEndCharacter : Byte) (scan : Scan) : Except Raised Round :=
  match scan.source with
  | [] => .error ⟨.unterminatedString, some (start.1, start.2 - 1)⟩
  | c :: s =>
    if c = strEndCharacter then .ok (.done scan)
    else if c = 0x5c#8 then
      escapeRound isStrict opts strEndCharacter { scan with source := s, column := scan.column + 1 }
    else if strEndCharacter = 0x60#8 ∧ c = 0x24#8 ∧ s.head? = some 0x7b#8 then
      .ok (.done { scan with source := s, rawLengthAdjust := scan.rawLengthAdjust - 1 })
    else plainRound strEndCharacter scan c s

/-! ## The pass -/

theorem plainRound_suffix {q : Byte} {scan scan' : Scan} {c : Byte} {s : List Byte}
    (h : plainRound q scan c s = .ok (.next scan')) : scan'.source <:+ s := by
  have hskip : s.dropWhile isExtraByte <:+ s := List.dropWhile_suffix isExtraByte
  unfold plainRound at h
  repeat' split at h
  all_goals first
    | cases h
      exact hskip
    | cases h
      exact List.drop_suffix _ s
    | cases h
      exact List.tail_suffix s
    | cases h
      exact List.suffix_refl s
    | cases h

theorem cookedEscapeRound_suffix {isStrict : Bool} {q : Byte} {scan scan' : Scan} {c : Byte} {s : List Byte}
    (h : cookedEscapeRound isStrict q scan c s = .ok (.next scan')) : scan'.source <:+ c :: s := by
  unfold cookedEscapeRound at h
  repeat' split at h
  all_goals first
    | exact (plainRound_suffix h).trans (List.suffix_cons c s)
    | cases h
      exact List.suffix_cons c s
    | cases h
      exact (List.drop_suffix _ s).trans (List.suffix_cons c s)
    | cases h
      exact List.drop_suffix _ _
    | cases h

theorem lineContinuation_suffix {s rest : List Byte} {adjust : Int} (h : lineContinuation s = some (rest, adjust)) :
    rest <:+ s := by
  cases s with
  | nil => cases h
  | cons c s =>
    simp only [lineContinuation] at h
    repeat' split at h
    all_goals first
      | cases h
        exact List.suffix_cons c _
      | cases h
        exact (List.tail_suffix s).trans (List.suffix_cons c s)
      | cases h
        exact (List.drop_suffix 2 s).trans (List.suffix_cons c s)
      | cases h

theorem escapeRound_suffix {isStrict : Bool} {opts : LexerStringOptions} {q : Byte} {scan scan' : Scan}
    (h : escapeRound isStrict opts q scan = .ok (.next scan')) : scan'.source <:+ scan.source := by
  unfold escapeRound at h
  split at h
  · cases h
    exact List.suffix_refl _
  · rename_i c s hs
    dsimp only at h
    rw [hs]
    split at h
    · rename_i hline
      cases h
      exact lineContinuation_suffix hline
    · cases opts with
      | raw =>
        dsimp only at h
        split at h
        · cases h
          exact List.suffix_cons c s
        · cases h
          dsimp only
          rw [hs]
      | noOpts => exact cookedEscapeRound_suffix h

/-- A round reads a byte at least. -/
theorem parseStringRound_suffix {start : LineCounter × LineCounter} {isStrict : Bool} {opts : LexerStringOptions}
    {q : Byte} {scan scan' : Scan} (h : parseStringRound start isStrict opts q scan = .ok (.next scan')) :
    ∃ c s, scan.source = c :: s ∧ scan'.source <:+ s := by
  unfold parseStringRound at h
  split at h
  · cases h
  · rename_i c s hs
    refine ⟨c, s, hs, ?_⟩
    split at h
    · cases h
    split at h
    · exact escapeRound_suffix h
    split at h
    · cases h
    · exact plainRound_suffix h

theorem parseStringRound_shorter {start : LineCounter × LineCounter} {isStrict : Bool} {opts : LexerStringOptions}
    {q : Byte} {scan scan' : Scan} (h : parseStringRound start isStrict opts q scan = .ok (.next scan')) :
    scan'.source.length < scan.source.length := by
  obtain ⟨c, s, hs, hsuffix⟩ := parseStringRound_suffix h
  rw [hs]
  exact Nat.lt_succ_of_le hsuffix.length_le

/-- The loop of the pass: the local variables at its end. -/
def parseStringLoop (start : LineCounter × LineCounter) (isStrict : Bool) (opts : LexerStringOptions)
    (strEndCharacter : Byte) (scan : Scan) : Except Raised Scan :=
  match h : parseStringRound start isStrict opts strEndCharacter scan with
  | .error e => .error e
  | .ok (.done scan) => .ok scan
  | .ok (.next scan) => parseStringLoop start isStrict opts strEndCharacter scan
termination_by scan.source.length
decreasing_by exact parseStringRound_shorter h

section

variable (context : ParserContext) (opts : LexerStringOptions)

/-- The local variables before the loop. -/
def initialScan (source : List Byte) : Scan where
  source := source
  line := context.line
  column := context.column + 1
  length := 0
  rawLengthAdjust := 0
  statusFlags := .isAscii
  has4ByteMarker := false

/-- `length` behind the loop. -/
def measuredLength (source : List Byte) (scan : Scan) : Nat :=
  match opts with
  | .raw => (((source.length - scan.source.length : Nat) : Int) + scan.rawLengthAdjust).toNat
  | .noOpts => scan.length

/-- The lines behind the loop. It ends at a byte, so the last case does not come up. -/
def finishString (strEndCharacter : Byte) (source : List Byte) (scan : Scan) : Except Raised Token :=
  if parserMaximumStringLength context.cpointer32Bit < measuredLength opts source scan then
    .error ⟨.stringTooLong, none⟩
  else
    match scan.source with
    | last :: rest =>
      .ok {
        type := if strEndCharacter ≠ 0x60#8 then .literal else .templateLiteral
        charP := source
        length := measuredLength opts source scan
        statusFlags := scan.statusFlags
        source := rest
        last := last
        line := scan.line
        column := scan.column + 1
        has4ByteMarker := scan.has4ByteMarker }
    | [] => .error ⟨.unterminatedString, none⟩

/-- `lexer_parse_string`. -/
def lexerParseString : Except Raised Token :=
  match context.source with
  | [] => .error ⟨.unterminatedString, none⟩
  | c :: source =>
    let strEndCharacter := if c = 0x7d#8 then 0x60#8 else c
    let start := (context.line, context.column + 1)
    (parseStringLoop start context.isStrict opts strEndCharacter (initialScan context source)).bind
      (finishString context opts strEndCharacter source)

end

end Lexer
end JJS
