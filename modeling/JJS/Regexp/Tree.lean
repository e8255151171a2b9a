import JJS.Regexp.Atom
import JJS.Regexp.Parser

/-!
# JJS.Regexp.Tree

A pattern as a tree. The tree is parsed from the tokens of the compiler with nothing written; the layout of a tree is
its byte code, put together from the inside to the outside. What the compiler leaves behind all its insertions is the
layout of the tree (`Regexp.Layout`).
-/

namespace JJS
namespace Regexp

open Utf8 Lit Strings

/-! ## Trees -/

/-- The bounds of a quantifier. -/
structure Quantifier where
  qmin : BitVec 32
  qmax : BitVec 32
  greedy : Bool

/-- A group: its number, the captures in it, and its quantifier. -/
structure Group where
  isCapturing : Bool
  idx : Nat
  captureStart : Nat
  captureCount : Nat
  quantifier : Quantifier

/-- A lookahead with the captures in it; only whether its minimum is zero matters. -/
structure Lookahead where
  negative : Bool
  optional : Bool
  captureStart : Nat
  captureCount : Nat

/-- An assertion that looks at a position. -/
inductive Assertion where
  | lineStart
  | lineEnd
  | wordBoundary
  | notWordBoundary

/-- One part of an alternative. The body of a group is the list of its alternatives. -/
inductive Term where
  | assertion (assertion : Assertion)
  | atom (atom : Atom) (quantifier : Quantifier)
  | backreference (idx : BitVec 32)
  | group (group : Group) (body : List (List Term))
  | lookahead (lookahead : Lookahead) (body : List (List Term))

/-! ## Layouts -/

/-- The opcode of an assertion. -/
def Assertion.opcode : Assertion → Opcode
  | .lineStart => .assertLineStart
  | .lineEnd => .assertLineEnd
  | .wordBoundary => .assertWordBoundary
  | .notWordBoundary => .assertNotWordBoundary

/-- The size of byte code, as a value in it. -/
def sizeValue (bytes : List Byte) : BitVec 32 := BitVec.ofNat 32 bytes.length

/-- An atom with its iterator. -/
def Quantifier.iteratorBytes (q : Quantifier) (body : List Byte) : List Byte :=
  if q.qmin = 1#32 ∧ q.qmax = 1#32 then body
  else
    (if q.greedy then Opcode.greedyIterator else Opcode.lazyIterator).toByte :: (encodeValue q.qmin ++
      (encodeValue (q.qmax + qmaxOffset) ++ (encodeValue (sizeValue (body ++ [Opcode.iteratorEnd.toByte])) ++
        (body ++ [Opcode.iteratorEnd.toByte]))))

/-- What is in front of the body of a group. -/
def Group.startBytes (g : Group) (body : List Byte) : List Byte :=
  (reGetGroupStartOpcode g.isCapturing).toByte :: (encodeValue (BitVec.ofNat 32 g.idx) ++
    ((if g.isCapturing then [] else encodeValue (BitVec.ofNat 32 g.captureStart)) ++
      (encodeValue (BitVec.ofNat 32 g.captureCount) ++ (encodeValue g.quantifier.qmin ++
        if g.quantifier.qmin = 0#32 then encodeValue (sizeValue body) else []))))

/-- What is behind the body of a group. -/
def Group.endBytes (g : Group) : List Byte :=
  (reGetGroupEndOpcode g.quantifier.greedy g.isCapturing).toByte :: (encodeValue (BitVec.ofNat 32 g.idx) ++
    (encodeValue g.quantifier.qmin ++ encodeValue (g.quantifier.qmax + qmaxOffset)))

/-- A group around its body. -/
def Group.bytes (g : Group) (body : List Byte) : List Byte := g.startBytes body ++ (body ++ g.endBytes)

/-- A lookahead around its body. -/
def Lookahead.bytes (l : Lookahead) (body : List Byte) : List Byte :=
  (if l.negative then Opcode.assertLookaheadNeg else Opcode.assertLookaheadPos).toByte ::
    (if l.optional then 0#8 else 1#8) :: (encodeValue (BitVec.ofNat 32 l.captureStart) ++
      (encodeValue (BitVec.ofNat 32 l.captureCount) ++
        (encodeValue (sizeValue (body ++ [Opcode.assertEnd.toByte])) ++ (body ++ [Opcode.assertEnd.toByte]))))

/-- An alternative behind its opcode. -/
def alternativeBytes (op : Opcode) (body : List Byte) : List Byte :=
  op.toByte :: (encodeValue (sizeValue body) ++ body)

section

variable (unicode : Bool)

mutual

/-- The byte code of a term. -/
def Term.bytes : Term → List Byte
  | .assertion assertion => [assertion.opcode.toByte]
  | .atom atom quantifier => quantifier.iteratorBytes (atom.bytes unicode)
  | .backreference idx => Opcode.backreference.toByte :: encodeValue idx
  | .group group body => group.bytes (altsBytes body)
  | .lookahead lookahead body => lookahead.bytes (altsBytes body)

/-- The byte code of an alternative. -/
def termsBytes : List Term → List Byte
  | [] => []
  | term :: terms => Term.bytes term ++ termsBytes terms

/-- The byte code of all the alternatives of a body. A single one has no opcode. -/
def altsBytes : List (List Term) → List Byte
  | [] => []
  | [terms] => termsBytes terms
  | terms :: other :: alts =>
    alternativeBytes .alternativeStart (termsBytes terms) ++ nextBytes (other :: alts)

/-- The alternatives behind the first one. -/
def nextBytes : List (List Term) → List Byte
  | [] => []
  | terms :: alts => alternativeBytes .alternativeNext (termsBytes terms) ++ nextBytes alts

end

end

/-! ## Parsing -/

/-- The part of the compiler that the byte code plays no part in. -/
structure TreeParser extends Lexer where
  capturesCount : Nat
  nonCapturesCount : Nat

/-- The contents of a character class. The characters are in the order in which they are stored. -/
structure ClassContent where
  inverted : Bool
  escapes : List ClassEscape
  chars : List CodePoint
  ranges : List (CodePoint × CodePoint)

/-- A character that belongs to a class, unless it stands for an escape. -/
def ClassContent.addValid (content : ClassContent) (cp : CodePoint) : ClassContent :=
  if cp = reInvalidCp then content else { content with chars := cp :: content.chars }

section

variable (tables : CaseTables)

/-- The loop of `re_parse_char_class`, with the contents instead of the byte code. -/
def treeClassLoop : Nat → ClassState → ClassContent → Lexer → Except Failure (ClassState × ClassContent × Lexer)
  | 0, _, _, _ => .error .steps
  | steps + 1, s, content, l =>
    match l.inputCurr with
    | [] => .error (.syntaxError .unterminatedCharacterClass)
    | b :: rest =>
      if b = 0x5d#8 then
        if s.isRange then .ok (s, (content.addValid s.start).addValid 0x2d#32, { l with inputCurr := rest })
        else .ok (s, content, { l with inputCurr := rest })
      else do
        let (current, s, l) ← classAtom s l
        if s.isRange then
          let s := { s with isRange := false }
          if s.start ≠ reInvalidCp ∧ current ≠ reInvalidCp then
            if current < s.start then .error (.syntaxError .rangeOutOfOrderInCharacterClass)
            else treeClassLoop steps s { content with ranges := content.ranges ++ [(s.start, current)] } l
          else if l.flags.unicode then .error (.syntaxError .invalidCharacterClass)
          else
            treeClassLoop steps s
              ((content.addValid (if s.start = reInvalidCp then current else s.start)).addValid 0x2d#32) l
        else
          match behindByte 0x2d#8 l.inputCurr with
          | some rest =>
            treeClassLoop steps { s with start := current, isRange := true } content { l with inputCurr := rest }
          | none => treeClassLoop steps s (content.addValid current) l

/-- `re_parse_char_class`: the contents, up to the quantifier. -/
def treeClass (l : Lexer) : Except Failure (ClassContent × Lexer) := do
  let content : ClassContent :=
    { inverted := (behindByte 0x5e#8 l.inputCurr).isSome, escapes := [], chars := [], ranges := [] }
  let l := { l with inputCurr := (behindByte 0x5e#8 l.inputCurr).getD l.inputCurr }
  let (s, content, l) ← treeClassLoop (l.inputCurr.length + 1) initialClassState content l
  .ok ({ content with escapes := (ClassEscape.all.filter s.foundEscapes.contains).reverse }, l)

/-- The class as it is stored, canonicalised; the null case is that it does not fit. -/
def ClassContent.stored (content : ClassContent) (flags : Flags) : Option CharClass :=
  let canonicalize := fun cp => ecmaRegexpCanonicalize tables cp flags
  let chars := content.chars.map canonicalize
  let ranges := content.ranges.map fun r => (canonicalize r.1, canonicalize r.2)
  if h : content.escapes.length < 8 ∧ chars.length < 2 ^ 32 ∧ ranges.length < 2 ^ 32 then
    some { inverted := content.inverted, escapes := content.escapes, chars, ranges, escapes_lt := h.1,
           chars_lt := h.2.1, ranges_lt := h.2.2 }
  else none

/-- The quantifier of the token. -/
def Token.quantifier (token : Token) : Quantifier := ⟨token.qmin, token.qmax, token.greedy⟩

/-- The atom of a single character. -/
def charAtom (l : Lexer) : Atom :=
  if l.token.value ≤ 0x7f#32 ∧ l.flags.ignoreCase = false then .byte (l.token.value.setWidth 8)
  else .char (ecmaRegexpCanonicalize tables l.token.value l.flags)

/-- The cases of `re_parse_alternative` that need no call of itself. -/
def treeAtom (p : TreeParser) : Except Failure (Term × TreeParser) :=
  match p.token.type with
  | .period => .ok (.atom .period p.token.quantifier, p)
  | .assertStart => .ok (.assertion .lineStart, p)
  | .assertEnd => .ok (.assertion .lineEnd, p)
  | .assertWordBoundary => .ok (.assertion .wordBoundary, p)
  | .assertNotWordBoundary => .ok (.assertion .notWordBoundary, p)
  | .backreference =>
    if p.token.qmin ≠ 1#32 ∨ p.token.qmax ≠ 1#32 then
      .ok (.group { isCapturing := false, idx := p.nonCapturesCount, captureStart := p.capturesCount,
                    captureCount := 0, quantifier := p.token.quantifier } [[.backreference p.token.value]],
        { p with nonCapturesCount := p.nonCapturesCount + 1 })
    else .ok (.backreference p.token.value, p)
  | .classEscape =>
    match ClassEscape.ofByte (p.token.value.setWidth 8) with
    | some escape => .ok (.atom (.classEscape escape) p.token.quantifier, p)
    | none => .error .outside
  | .charClass => do
    let (content, l) ← treeClass p.toLexer
    match content.stored tables l.flags with
    | some cls => do
      let l ← withQuantifier l
      .ok (.atom (.charClass cls) l.token.quantifier, { p with toLexer := l })
    | none => .error .outOfMemory
  | _ => .ok (.atom (charAtom tables p.toLexer) p.token.quantifier, p)

/-- The term of a group; a non-capturing one with nothing in it has none. -/
def groupTerms (group : Group) (body : List (List Term)) : List Term :=
  match group.isCapturing, body with
  | false, [[]] => []
  | _, _ => [.group group body]

/-- The loop of `re_parse_alternative`: the alternatives that are done, and the terms of the one that is not. -/
def treeLoop : Nat → Bool → List (List Term) → List Term → TreeParser →
    Except Failure (List (List Term) × TreeParser)
  | 0, _, _, _, _ => .error .steps
  | steps + 1, expectEof, done, terms, p => do
    let l ← reParseNextToken p.toLexer
    let p := { p with toLexer := l }
    match p.token.type with
    | .startCaptureGroup => do
      let idx := p.capturesCount
      let (body, p) ← treeLoop steps false [] [] { p with capturesCount := p.capturesCount + 1 }
      let l ← withQuantifier p.toLexer
      let p := { p with toLexer := l }
      let group := { isCapturing := true, idx, captureStart := idx, captureCount := p.capturesCount - idx,
                     quantifier := p.token.quantifier }
      treeLoop steps expectEof done (terms ++ groupTerms group body) p
    | .startNonCaptureGroup => do
      let idx := p.nonCapturesCount
      let captureStart := p.capturesCount
      let (body, p) ← treeLoop steps false [] [] { p with nonCapturesCount := p.nonCapturesCount + 1 }
      let l ← withQuantifier p.toLexer
      let p := { p with toLexer := l }
      let group := { isCapturing := false, idx, captureStart, captureCount := p.capturesCount - captureStart,
                     quantifier := p.token.quantifier }
      treeLoop steps expectEof done (terms ++ groupTerms group body) p
    | .assertLookahead => do
      let captureStart := p.capturesCount
      let negative := decide (p.token.value ≠ 0#32)
      let (body, p) ← treeLoop steps false [] [] p
      let l ← lookaheadQuantifier p.toLexer
      let p := { p with toLexer := l }
      let lookahead := { negative, optional := decide (p.token.qmin = 0#32), captureStart,
                         captureCount := p.capturesCount - captureStart }
      treeLoop steps expectEof done (terms ++ [.lookahead lookahead body]) p
    | .alternative => treeLoop steps expectEof (done ++ [terms]) [] p
    | .endGroup => if expectEof then .error (.syntaxError .unmatchedCloseBracket) else .ok (done ++ [terms], p)
    | .eof => if !expectEof then .error (.syntaxError .unexpectedEndOfPattern) else .ok (done ++ [terms], p)
    | _ => do
      let (term, p) ← treeAtom tables p
      treeLoop steps expectEof done (terms ++ [term]) p

/-- The tree of a pattern, and the parser at its end. -/
def parseTree (pattern : List Byte) (flags : Flags) : Except Failure (List (List Term) × TreeParser) :=
  treeLoop tables (pattern.length + 1) true [] []
    { inputStart := pattern, inputCurr := pattern, groupsCount := none, flags,
      token := { type := .eof, value := 0#32, qmin := 1#32, qmax := 1#32, greedy := true },
      capturesCount := 1, nonCapturesCount := 0 }

end

end Regexp
end JJS
