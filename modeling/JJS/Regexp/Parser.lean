import JJS.Regexp.Token

/-!
# JJS.Regexp.Parser

The compiler of patterns (`re-parser.c`, `re-compiler.c`) and how it writes byte code (`re-bytecode.c`). Quantifiers,
groups and alternatives are known only behind their bodies, so most of what they need is inserted in front of code that
is there already. A block of memory that cannot be had ends the engine. There is no stack limit, and the cache is left
out.
-/

namespace JJS
namespace Regexp

open Utf8 Lit Strings

/-- The blocks that the allocator has. The size of the heap is a number of 32 bits. -/
structure Heap where
  allocates : Nat → Bool
  allocates_lt : ∀ size, allocates size = true → size < 2 ^ 32

/-- A heap that has every block. -/
def wideHeap : Heap where
  allocates size := decide (size < 2 ^ 32)
  allocates_lt _ h := of_decide_eq_true h

/-- `re_compiler_ctx_t`. -/
structure Compiler extends Lexer where
  heap : Heap
  bytecode : List Byte
  capturesCount : Nat
  nonCapturesCount : Nat

/-! ## Writing byte code -/

namespace Compiler

variable (c : Compiler)

/-- `re_bytecode_size`. -/
def bytecodeSize : Nat := c.bytecode.length

/-- `re_bytecode_reserve`, and the bytes. -/
def reAppendBytes (bytes : List Byte) : Except Failure Compiler :=
  if c.heap.allocates (c.bytecode.length + bytes.length) then .ok { c with bytecode := c.bytecode ++ bytes }
  else .error .outOfMemory

/-- `re_bytecode_insert`, and the bytes. -/
def reInsertBytes (offset : Nat) (bytes : List Byte) : Except Failure Compiler :=
  if c.heap.allocates (c.bytecode.length + bytes.length) then
    .ok { c with bytecode := c.bytecode.take offset ++ (bytes ++ c.bytecode.drop offset) }
  else .error .outOfMemory

/-- `re_append_opcode`. -/
def reAppendOpcode (op : Opcode) : Except Failure Compiler := c.reAppendBytes [op.toByte]

/-- `re_append_byte`. -/
def reAppendByte (b : Byte) : Except Failure Compiler := c.reAppendBytes [b]

/-- `re_append_value`. -/
def reAppendValue (value : BitVec 32) : Except Failure Compiler := c.reAppendBytes (encodeValue value)

/-- `re_append_char`. -/
def reAppendChar (cp : CodePoint) : Except Failure Compiler := c.reAppendBytes (encodeChar c.flags.unicode cp)

/-- `re_insert_opcode`. -/
def reInsertOpcode (offset : Nat) (op : Opcode) : Except Failure Compiler := c.reInsertBytes offset [op.toByte]

/-- `re_insert_byte`. -/
def reInsertByte (offset : Nat) (b : Byte) : Except Failure Compiler := c.reInsertBytes offset [b]

/-- `re_insert_value`. -/
def reInsertValue (offset : Nat) (value : BitVec 32) : Except Failure Compiler :=
  c.reInsertBytes offset (encodeValue value)

/-- A value that is inserted under a condition. -/
def reInsertValueIf (condition : Prop) [Decidable condition] (offset : Nat) (value : BitVec 32) :
    Except Failure Compiler :=
  if condition then c.reInsertValue offset value else .ok c

/-- `re_insert_char`. -/
def reInsertChar (offset : Nat) (cp : CodePoint) : Except Failure Compiler :=
  c.reInsertBytes offset (encodeChar c.flags.unicode cp)

/-- The code from an offset on, as the value that is inserted in front of it. -/
def sizeFrom (offset : Nat) : BitVec 32 := BitVec.ofNat 32 (c.bytecodeSize - offset)

end Compiler

/-! ## Groups, iterators and lookaheads -/

/-- `re_get_group_start_opcode`. -/
def reGetGroupStartOpcode (isCapturing : Bool) : Opcode :=
  if isCapturing then .capturingGroupStart else .nonCapturingGroupStart

/-- `re_get_group_end_opcode`. -/
def reGetGroupEndOpcode (greedy isCapturing : Bool) : Opcode :=
  if isCapturing then if greedy then .greedyCapturingGroupEnd else .lazyCapturingGroupEnd
  else if greedy then .greedyNonCapturingGroupEnd
  else .lazyNonCapturingGroupEnd

/-- `re_insert_into_group`. -/
def reInsertIntoGroup (c : Compiler) (groupStartOffset idx captureStart : Nat) (isCapturing : Bool) :
    Except Failure Compiler :=
  if !isCapturing ∧ c.bytecodeSize = groupStartOffset then .ok c
  else do
    let c ← c.reInsertValueIf (c.token.qmin = 0#32) groupStartOffset (c.sizeFrom groupStartOffset)
    let c ← c.reInsertValue groupStartOffset c.token.qmin
    let c ← c.reInsertValue groupStartOffset (BitVec.ofNat 32 (c.capturesCount - captureStart))
    let c ← c.reInsertValueIf (isCapturing = false) groupStartOffset (BitVec.ofNat 32 captureStart)
    let c ← c.reInsertValue groupStartOffset (BitVec.ofNat 32 idx)
    let c ← c.reInsertOpcode groupStartOffset (reGetGroupStartOpcode isCapturing)
    let c ← c.reAppendOpcode (reGetGroupEndOpcode c.token.greedy isCapturing)
    let c ← c.reAppendValue (BitVec.ofNat 32 idx)
    let c ← c.reAppendValue c.token.qmin
    c.reAppendValue (c.token.qmax + qmaxOffset)

/-- `re_insert_atom_iterator`. -/
def reInsertAtomIterator (c : Compiler) (startOffset : Nat) : Except Failure Compiler :=
  if c.token.qmin = 1#32 ∧ c.token.qmax = 1#32 then .ok c
  else do
    let c ← c.reAppendOpcode .iteratorEnd
    let c ← c.reInsertValue startOffset (c.sizeFrom startOffset)
    let c ← c.reInsertValue startOffset (c.token.qmax + qmaxOffset)
    let c ← c.reInsertValue startOffset c.token.qmin
    c.reInsertOpcode startOffset (if c.token.greedy then .greedyIterator else .lazyIterator)

/-- `re_insert_assertion_lookahead`. -/
def reInsertAssertionLookahead (c : Compiler) (startOffset captureStart : Nat) (negative : Bool) :
    Except Failure Compiler := do
  let c ← c.reAppendOpcode .assertEnd
  let c ← c.reInsertValue startOffset (c.sizeFrom startOffset)
  let c ← c.reInsertValue startOffset (BitVec.ofNat 32 (c.capturesCount - captureStart))
  let c ← c.reInsertValue startOffset (BitVec.ofNat 32 captureStart)
  let c ← c.reInsertByte startOffset (if c.token.qmin = 0#32 then 0#8 else 1#8)
  c.reInsertOpcode startOffset (if negative then .assertLookaheadNeg else .assertLookaheadPos)

/-! ## Character classes -/

/-- `RE_INVALID_CP`. -/
def reInvalidCp : CodePoint := 0xffffffff#32

/-- The variables of `re_parse_char_class`. -/
structure ClassState where
  foundEscapes : List ClassEscape
  rangeCount : Nat
  charCount : Nat
  isRange : Bool
  start : CodePoint

/-- The variables in front of the loop. -/
def initialClassState : ClassState where
  foundEscapes := []
  rangeCount := 0
  charCount := 0
  isRange := false
  start := reInvalidCp

section

variable (tables : CaseTables)

/-- `re_class_add_range`. -/
def reClassAddRange (c : Compiler) (start stop : CodePoint) : Except Failure Compiler := do
  let c ← c.reAppendChar (ecmaRegexpCanonicalize tables start c.flags)
  c.reAppendChar (ecmaRegexpCanonicalize tables stop c.flags)

/-- `re_class_add_char`, and `char_count++`. -/
def reClassAddChar (classOffset : Nat) (cp : CodePoint) (s : ClassState) (c : Compiler) :
    Except Failure (ClassState × Compiler) := do
  let c ← c.reInsertChar classOffset (ecmaRegexpCanonicalize tables cp c.flags)
  .ok ({ s with charCount := s.charCount + 1 }, c)

/-- The character or class escape in front of the input; `RE_INVALID_CP` stands for an escape, which is recorded. -/
def classAtom (s : ClassState) (l : Lexer) : Except Failure (CodePoint × ClassState × Lexer) :=
  match l.inputCurr with
  | [] => .error .outside
  | b :: rest =>
    if b = 0x5c#8 then
      match rest with
      | [] => .error (.syntaxError .invalidEscape)
      | e :: tail =>
        if e = 0x62#8 then .ok (0x08#32, s, { l with inputCurr := tail })
        else if e = 0x2d#8 then .ok (0x2d#32, s, { l with inputCurr := tail })
        else
          match controlDigit l.flags.unicode e tail with
          | some (value, tail) => .ok (value, s, { l with inputCurr := tail })
          | none => do
            let l ← reParseCharEscape { l with inputCurr := e :: tail }
            if l.token.type = .classEscape then
              match ClassEscape.ofByte (l.token.value.setWidth 8) with
              | some escape => .ok (reInvalidCp, { s with foundEscapes := escape :: s.foundEscapes }, l)
              | none => .error .outside
            else .ok (l.token.value, s, l)
    else if l.flags.unicode then do
      let (ch, rest) ← readInput (b :: rest)
      if litIsHighSurrogate ch ∧ rest ≠ [] then do
        let (next, _) ← readInput rest
        if litIsLowSurrogate next then
          .ok (litConvertSurrogatePairToCodePoint ch next, s, { l with inputCurr := rest.drop 3 })
        else .ok (ch.setWidth 32, s, { l with inputCurr := rest })
      else .ok (ch.setWidth 32, s, { l with inputCurr := rest })
    else do
      let (ch, rest) ← readInput (b :: rest)
      .ok (ch.setWidth 32, s, { l with inputCurr := rest })
where
  /-- The letter `c` with a digit or an underscore, without the flag `u`. -/
  controlDigit (unicode : Bool) (e : Byte) (tail : List Byte) : Option (CodePoint × List Byte) :=
    match tail with
    | [] => none
    | d :: tail =>
      if unicode = false ∧ e = 0x63#8 ∧ (litCharIsDecimalDigit d ∨ d = 0x5f#8) then
        some (BitVec.ofNat 32 (d.toNat % 32), tail)
      else none

/-- A character that is added unless it is `RE_INVALID_CP`. -/
def classAddValid (classOffset : Nat) (cp : CodePoint) (s : ClassState) (c : Compiler) :
    Except Failure (ClassState × Compiler) :=
  if cp = reInvalidCp then .ok (s, c) else reClassAddChar tables classOffset cp s c

/-- The loop of `re_parse_char_class`. The first argument bounds the number of steps. -/
def classLoop (classOffset : Nat) : Nat → ClassState → Compiler → Except Failure (ClassState × Compiler)
  | 0, _, _ => .error .steps
  | steps + 1, s, c =>
    match c.inputCurr with
    | [] => .error (.syntaxError .unterminatedCharacterClass)
    | b :: rest =>
      if b = 0x5d#8 then
        if s.isRange then do
          let (s, c) ← classAddValid tables classOffset s.start s c
          let (s, c) ← reClassAddChar tables classOffset 0x2d#32 s c
          .ok (s, { c with inputCurr := rest })
        else .ok (s, { c with inputCurr := rest })
      else do
        let (current, s, l) ← classAtom s c.toLexer
        let c := { c with toLexer := l }
        if s.isRange then
          let s := { s with isRange := false }
          if s.start ≠ reInvalidCp ∧ current ≠ reInvalidCp then
            if current < s.start then .error (.syntaxError .rangeOutOfOrderInCharacterClass)
            else do
              let c ← reClassAddRange tables c s.start current
              classLoop classOffset steps { s with rangeCount := s.rangeCount + 1 } c
          else if c.flags.unicode then .error (.syntaxError .invalidCharacterClass)
          else do
            -- the one of the two that is no escape, if there is one
            let (s, c) ←
              classAddValid tables classOffset (if s.start = reInvalidCp then current else s.start) s c
            let (s, c) ← reClassAddChar tables classOffset 0x2d#32 s c
            classLoop classOffset steps s c
        else
          match behindByte 0x2d#8 c.inputCurr with
          | some rest =>
            classLoop classOffset steps { s with start := current, isRange := true } { c with inputCurr := rest }
          | none => do
            let (s, c) ← classAddValid tables classOffset current s c
            classLoop classOffset steps s c

/-- The loop over the escapes of a class: those that were found are inserted. -/
def insertEscapes (classOffset : Nat) (found : List ClassEscape) : List ClassEscape → Nat → Compiler →
    Except Failure (Nat × Compiler)
  | [], escapeCount, c => .ok (escapeCount, c)
  | escape :: escapes, escapeCount, c =>
    if found.contains escape then do
      let c ← c.reInsertByte classOffset escape.toByte
      insertEscapes classOffset found escapes (escapeCount + 1) c
    else insertEscapes classOffset found escapes escapeCount c

/-- `re_parse_char_class`. -/
def reParseCharClass (c : Compiler) : Except Failure Compiler := do
  let classOffset := c.bytecodeSize
  let inverted := (behindByte 0x5e#8 c.inputCurr).isSome
  let c := { c with inputCurr := (behindByte 0x5e#8 c.inputCurr).getD c.inputCurr }
  let (s, c) ← classLoop tables classOffset (c.inputCurr.length + 1) initialClassState c
  let (escapeCount, c) ← insertEscapes classOffset s.foundEscapes ClassEscape.all 0 c
  let c ← c.reInsertValueIf (0 < s.rangeCount) classOffset (BitVec.ofNat 32 s.rangeCount)
  let c ← c.reInsertValueIf (0 < s.charCount) classOffset (BitVec.ofNat 32 s.charCount)
  let c ← c.reInsertByte classOffset ((if inverted then 0x80#8 else 0#8) |||
    (if 0 < s.rangeCount then 0x40#8 else 0#8) ||| (if 0 < s.charCount then 0x20#8 else 0#8) |||
    BitVec.ofNat 8 escapeCount)
  let c ← c.reInsertOpcode classOffset .charClass
  let l ← withQuantifier c.toLexer
  .ok { c with toLexer := l }

/-! ## Alternatives -/

/-- `alternative_offset` and `first_alternative`. -/
structure Alternatives where
  offset : Nat
  first : Bool

/-- The opcode of an alternative in front of it, when another one follows or has come before. -/
def insertAlternative (c : Compiler) (alternatives : Alternatives) : Except Failure Compiler := do
  let c ← c.reInsertValue alternatives.offset (c.sizeFrom alternatives.offset)
  c.reInsertOpcode alternatives.offset (if alternatives.first then .alternativeStart else .alternativeNext)

/-- The end of the alternatives. -/
def finishAlternatives (c : Compiler) (alternatives : Alternatives) : Except Failure Compiler :=
  if alternatives.first then .ok c else insertAlternative c alternatives

/-- The case of a single character in `re_parse_alternative`. -/
def appendChar (c : Compiler) : Except Failure Compiler :=
  if c.token.value ≤ 0x7f#32 ∧ c.flags.ignoreCase = false then do
    let c ← c.reAppendOpcode .byte
    c.reAppendByte (c.token.value.setWidth 8)
  else do
    let c ← c.reAppendOpcode .char
    c.reAppendChar (ecmaRegexpCanonicalize tables c.token.value c.flags)

/-- The cases of `re_parse_alternative` that need no call of itself. -/
def appendAtom (c : Compiler) (atomOffset : Nat) : Except Failure Compiler :=
  match c.token.type with
  | .period => do
    let c ← c.reAppendOpcode (if c.flags.unicode then .unicodePeriod else .period)
    reInsertAtomIterator c atomOffset
  | .assertStart => c.reAppendOpcode .assertLineStart
  | .assertEnd => c.reAppendOpcode .assertLineEnd
  | .assertWordBoundary => c.reAppendOpcode .assertWordBoundary
  | .assertNotWordBoundary => c.reAppendOpcode .assertNotWordBoundary
  | .backreference => do
    let c ← c.reAppendOpcode .backreference
    let c ← c.reAppendValue c.token.value
    if c.token.qmin ≠ 1#32 ∨ c.token.qmax ≠ 1#32 then
      reInsertIntoGroup { c with nonCapturesCount := c.nonCapturesCount + 1 } atomOffset c.nonCapturesCount
        c.capturesCount false
    else .ok c
  | .classEscape => do
    let c ← c.reAppendOpcode .classEscape
    let c ← c.reAppendByte (c.token.value.setWidth 8)
    reInsertAtomIterator c atomOffset
  | .charClass => do
    let c ← reParseCharClass tables c
    reInsertAtomIterator c atomOffset
  | _ => do
    let c ← appendChar tables c
    reInsertAtomIterator c atomOffset

/-- The quantifier of a lookahead, which has none in full unicode mode. -/
def lookaheadQuantifier (l : Lexer) : Except Failure Lexer :=
  if l.flags.unicode then .ok { l with token := { l.token with qmin := 1#32, qmax := 1#32, greedy := true } }
  else withQuantifier l

/-- The loop of `re_parse_alternative`. The first argument bounds the number of steps and of nested calls. -/
def parseLoop : Nat → Bool → Alternatives → Compiler → Except Failure Compiler
  | 0, _, _, _ => .error .steps
  | steps + 1, expectEof, alternatives, c => do
    let l ← reParseNextToken c.toLexer
    let c := { c with toLexer := l }
    let atomOffset := c.bytecodeSize
    match c.token.type with
    | .startCaptureGroup => do
      let idx := c.capturesCount
      let c := { c with capturesCount := c.capturesCount + 1 }
      let c ← parseLoop steps false ⟨c.bytecodeSize, true⟩ c
      let l ← withQuantifier c.toLexer
      let c := { c with toLexer := l }
      let c ← reInsertIntoGroup c atomOffset idx idx true
      parseLoop steps expectEof alternatives c
    | .startNonCaptureGroup => do
      let idx := c.nonCapturesCount
      let captureStart := c.capturesCount
      let c := { c with nonCapturesCount := c.nonCapturesCount + 1 }
      let c ← parseLoop steps false ⟨c.bytecodeSize, true⟩ c
      let l ← withQuantifier c.toLexer
      let c := { c with toLexer := l }
      let c ← reInsertIntoGroup c atomOffset idx captureStart false
      parseLoop steps expectEof alternatives c
    | .assertLookahead => do
      let captureStart := c.capturesCount
      let isNegative := decide (c.token.value ≠ 0#32)
      let c ← parseLoop steps false ⟨c.bytecodeSize, true⟩ c
      let l ← lookaheadQuantifier c.toLexer
      let c := { c with toLexer := l }
      let c ← reInsertAssertionLookahead c atomOffset captureStart isNegative
      parseLoop steps expectEof alternatives c
    | .alternative => do
      let c ← insertAlternative c alternatives
      parseLoop steps expectEof ⟨c.bytecodeSize, false⟩ c
    | .endGroup =>
      if expectEof then .error (.syntaxError .unmatchedCloseBracket) else finishAlternatives c alternatives
    | .eof =>
      if !expectEof then .error (.syntaxError .unexpectedEndOfPattern)
      else do
        let c ← finishAlternatives c alternatives
        c.reAppendOpcode .eof
    | _ => do
      let c ← appendAtom tables c atomOffset
      parseLoop steps expectEof alternatives c

/-- `re_parse_alternative`. -/
def reParseAlternative (steps : Nat) (expectEof : Bool) (c : Compiler) : Except Failure Compiler :=
  parseLoop tables steps expectEof ⟨c.bytecodeSize, true⟩ c

/-- `sizeof (re_compiled_code_t)`. -/
def sizeOfCompiledCode : Nat := 24

/-- The compiled pattern: the byte code behind the header, and the numbers of groups. -/
structure CompiledCode where
  code : List Byte
  capturesCount : Nat
  nonCapturesCount : Nat
  flags : Flags

/-- The context that `re_compile_bytecode` sets up, behind `re_initialize_regexp_bytecode`. -/
def initialContext (heap : Heap) (pattern : List Byte) (flags : Flags) : Compiler where
  heap
  inputStart := pattern
  inputCurr := pattern
  bytecode := List.replicate sizeOfCompiledCode 0#8
  capturesCount := 1
  nonCapturesCount := 0
  groupsCount := none
  flags
  token := { type := .eof, value := 0#32, qmin := 1#32, qmax := 1#32, greedy := true }

/-- `re_compile_bytecode`, of a pattern that is not in the cache. -/
def reCompileBytecode (heap : Heap) (pattern : List Byte) (flags : Flags) : Except Failure CompiledCode :=
  if heap.allocates sizeOfCompiledCode then do
    let c ← reParseAlternative tables (pattern.length + 1) true (initialContext heap pattern flags)
    .ok { code := c.bytecode.drop sizeOfCompiledCode, capturesCount := c.capturesCount,
          nonCapturesCount := c.nonCapturesCount, flags }
  else .error .outOfMemory

end

end Regexp
end JJS
