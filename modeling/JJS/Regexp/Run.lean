import JJS.Regexp.Chars

/-!
# JJS.Regexp.Run

The matcher `ecma_regexp_run` (`ecma-regexp-object.c`), for an engine without a stack limit. A match is an address of
the input or null, and the captures are updated in place. The matcher calls itself for every group, iteration and tail;
a number bounds the depth of the calls and the length of every loop, and the null case is that it was too small, or a
read outside the byte code or the tables of groups.
-/

namespace JJS
namespace Regexp

open Utf8 Lit Strings

/-! ## The tables of groups -/

/-- `ecma_regexp_capture_t`. -/
structure Capture where
  beginP : Option Nat
  endP : Option Nat
  bc : Nat
  iterator : BitVec 32
  subcaptureCount : BitVec 32

/-- `ecma_regexp_non_capture_t`. -/
structure NonCapture where
  beginP : Option Nat
  bc : Nat
  iterator : BitVec 32
  subcaptureStart : BitVec 32
  subcaptureCount : BitVec 32

/-- What changes in `ecma_regexp_ctx_t` during a match. -/
structure Matcher where
  captures : List Capture
  nonCaptures : List NonCapture

/-- What a call of `ecma_regexp_run` comes back with. -/
abbrev Result := Option Nat × Matcher

/-- `ecma_regexp_run`, from a position in the byte code and an address in the input. -/
abbrev Call := Nat → Nat → Matcher → Option Result

namespace Matcher

variable (st : Matcher)

/-- `captures_p[idx]` is updated. -/
def updateCapture (idx : Nat) (f : Capture → Capture) : Option Matcher :=
  if idx < st.captures.length then some { st with captures := st.captures.modify idx f } else none

/-- `non_captures_p[idx]` is updated. -/
def updateNonCapture (idx : Nat) (f : NonCapture → NonCapture) : Option Matcher :=
  if idx < st.nonCaptures.length then some { st with nonCaptures := st.nonCaptures.modify idx f } else none

/-- `begin_p = NULL` in so many captures. -/
def clearBegins (first : Nat) : Nat → Option Matcher
  | 0 => some st
  | count + 1 => do
    let st ← clearBegins first count
    st.updateCapture (first + count) fun c => { c with beginP := none }

/-- `saved_captures_p`, of `begin_p`. -/
def savedBegins (first count : Nat) : List (Option Nat) :=
  (List.range count).map fun i => (st.captures[first + i]?).bind Capture.beginP

/-- `saved_captures_p`, of `end_p`. -/
def savedEnds (first count : Nat) : List (Option Nat) :=
  (List.range count).map fun i => (st.captures[first + i]?).bind Capture.endP

/-- `begin_p = saved_captures_p[i]`. -/
def restoreBegins (first : Nat) : List (Option Nat) → Matcher → Option Matcher
  | [], st => some st
  | beginP :: saved, st => do
    let st ← st.updateCapture first fun c => { c with beginP }
    restoreBegins (first + 1) saved st

/-- `begin_p = NULL` and `end_p = saved_captures_p[i]`. -/
def restoreEnds (first : Nat) : List (Option Nat) → Matcher → Option Matcher
  | [], st => some st
  | endP :: saved, st => do
    let st ← st.updateCapture first fun c => { c with beginP := none, endP }
    restoreEnds (first + 1) saved st

end Matcher

/-- `begin_p >= str_curr_p`. -/
def atOrBehind (beginP : Option Nat) (str : Nat) : Bool :=
  match beginP with
  | none => false
  | some b => decide (str ≤ b)

/-! ## One instruction -/

/-- What an instruction makes of the loop. -/
inductive Next where
  /-- `continue` -/
  | goOn (bc str : Nat) (st : Matcher)
  /-- `continue`, with `next_alternative_p` set -/
  | alternatives (nextAlternative bc str : Nat) (st : Matcher)
  /-- `goto fail` -/
  | fail (st : Matcher)
  /-- `return` -/
  | return (matched : Option Nat) (st : Matcher)

/-- A match is returned, and without one the instruction fails with what is done then. -/
def Next.orElse (matched : Option Nat) (st : Matcher) (otherwise : Matcher → Option Next) : Option Next :=
  match matched with
  | some _ => some (.return matched st)
  | none => otherwise st

section

variable (tables : CaseTables) (flags : Flags) (subject : Subject) (code : List Byte) (call : Call)

/-- The loop of `RE_OP_ALTERNATIVE_NEXT`. The first argument bounds the number of steps. -/
def skipAlternatives : Nat → Nat → Option Nat
  | 0, _ => none
  | steps + 1, bc => do
    let (offset, bc) ← getValue code bc
    let bc := bc + offset.toNat
    let op ← code[bc]?
    if op ≠ Opcode.alternativeNext.toByte then some bc else skipAlternatives steps (bc + 1)

/-- `RE_OP_CAPTURING_GROUP_START`. -/
def capturingGroupStart (bc str : Nat) (st : Matcher) : Option Next := do
  let (groupIdx, bc) ← getValue code bc
  let (subcaptureCount, bc) ← getValue code bc
  let st ← st.updateCapture groupIdx.toNat fun c => { c with subcaptureCount }
  let group ← st.captures[groupIdx.toNat]?
  let (qmin, bc) ← getValue code bc
  let st ← st.updateCapture groupIdx.toNat fun c => { c with endP := none }
  if qmin = 0#32 then do
    let (endOffset, bc) ← getValue code bc
    let st ← st.updateCapture groupIdx.toNat fun c => { c with iterator := 0#32, beginP := none, bc }
    leave groupIdx.toNat group (← call (bc + endOffset.toNat) str st)
  else do
    let st ← st.updateCapture groupIdx.toNat fun c => { c with iterator := 1#32, beginP := some str, bc }
    leave groupIdx.toNat group (← call bc str st)
where
  /-- The group is as it was before, unless there is a match. -/
  leave (groupIdx : Nat) (saved : Capture) (result : Result) : Option Next := do
    let st ← result.2.updateCapture groupIdx fun c => { c with iterator := saved.iterator }
    Next.orElse result.1 st fun st => do
      let st ← st.updateCapture groupIdx fun c => { c with beginP := saved.beginP, endP := saved.endP }
      some (.fail st)

/-- `RE_OP_NON_CAPTURING_GROUP_START`. -/
def nonCapturingGroupStart (bc str : Nat) (st : Matcher) : Option Next := do
  let (groupIdx, bc) ← getValue code bc
  let (subcaptureStart, bc) ← getValue code bc
  let (subcaptureCount, bc) ← getValue code bc
  let st ← st.updateNonCapture groupIdx.toNat fun c => { c with subcaptureStart, subcaptureCount }
  let group ← st.nonCaptures[groupIdx.toNat]?
  let (qmin, bc) ← getValue code bc
  if qmin = 0#32 then do
    let (endOffset, bc) ← getValue code bc
    let st ← st.updateNonCapture groupIdx.toNat fun c => { c with iterator := 0#32, beginP := none, bc }
    leave groupIdx.toNat group (← call (bc + endOffset.toNat) str st)
  else do
    let st ← st.updateNonCapture groupIdx.toNat fun c => { c with iterator := 1#32, beginP := some str, bc }
    leave groupIdx.toNat group (← call bc str st)
where
  /-- The group is as it was before, unless there is a match. -/
  leave (groupIdx : Nat) (saved : NonCapture) (result : Result) : Option Next := do
    let st ← result.2.updateNonCapture groupIdx fun c => { c with iterator := saved.iterator }
    Next.orElse result.1 st fun st => do
      let st ← st.updateNonCapture groupIdx fun c => { c with beginP := saved.beginP }
      some (.fail st)

/-- Another iteration of a capturing group below its minimum: nested captures are cleared. -/
def iterateCapturingBelow (groupIdx : Nat) (group : Capture) (str : Nat) (st : Matcher) : Option Next := do
  let st ← st.updateCapture groupIdx fun c => { c with beginP := some str }
  let st ← st.clearBegins (groupIdx + 1) (group.subcaptureCount.toNat - 1)
  let st ← st.updateCapture groupIdx fun c => { c with iterator := c.iterator + 1#32 }
  let (matched, st) ← call group.bc str st
  Next.orElse matched st fun st => do
    let st ← st.updateCapture groupIdx fun c => { c with iterator := c.iterator - 1#32 }
    some (.fail st)

/-- Another iteration of a capturing group: nested captures are saved and cleared. What follows a failure gets the
restored group. -/
def iterateCapturing (groupIdx : Nat) (group : Capture) (str : Nat) (st : Matcher)
    (otherwise : Matcher → Option Next) : Option Next := do
  let saved := st.savedBegins groupIdx group.subcaptureCount.toNat
  let st ← st.clearBegins groupIdx group.subcaptureCount.toNat
  let st ← st.updateCapture groupIdx fun c => { c with iterator := c.iterator + 1#32, beginP := some str }
  let (matched, st) ← call group.bc str st
  Next.orElse matched st fun st => do
    let st ← st.restoreBegins groupIdx saved
    let st ← st.updateCapture groupIdx fun c => { c with iterator := c.iterator - 1#32 }
    otherwise st

/-- Another iteration of a non-capturing group: nested captures are saved and cleared. -/
def iterateNonCapturing (groupIdx : Nat) (group : NonCapture) (str : Nat) (st : Matcher)
    (otherwise : Matcher → Option Next) : Option Next := do
  let saved := st.savedBegins group.subcaptureStart.toNat group.subcaptureCount.toNat
  let st ← st.clearBegins group.subcaptureStart.toNat group.subcaptureCount.toNat
  let st ← st.updateNonCapture groupIdx fun c => { c with iterator := c.iterator + 1#32, beginP := some str }
  let (matched, st) ← call group.bc str st
  Next.orElse matched st fun st => do
    let st ← st.restoreBegins group.subcaptureStart.toNat saved
    let st ← st.updateNonCapture groupIdx fun c => { c with iterator := c.iterator - 1#32, beginP := group.beginP }
    otherwise st

/-- The tail of the byte code. -/
def runTail (bc str : Nat) (st : Matcher) (otherwise : Matcher → Option Next) : Option Next := do
  let (matched, st) ← call bc str st
  Next.orElse matched st otherwise

/-- `RE_OP_GREEDY_CAPTURING_GROUP_END`. -/
def greedyCapturingGroupEnd (bc str : Nat) (st : Matcher) : Option Next := do
  let (groupIdx, bc) ← getValue code bc
  let group ← st.captures[groupIdx.toNat]?
  let (qmin, bc) ← getValue code bc
  if group.iterator < qmin then iterateCapturingBelow call groupIdx.toNat group str st
  else if atOrBehind group.beginP str ∧ qmin < group.iterator then some (.fail st)
  else do
    let (qmax, bc) ← getValue code bc
    if qmax - qmaxOffset ≤ group.iterator then do
      let st ← st.updateCapture groupIdx.toNat fun c => { c with endP := some str }
      runTail call bc str st fun st => some (.fail st)
    else
      iterateCapturing call groupIdx.toNat group str st fun st => do
        let st ← st.updateCapture groupIdx.toNat fun c => { c with endP := some str }
        runTail call bc str st fun st => some (.fail st)

/-- `RE_OP_GREEDY_NON_CAPTURING_GROUP_END`. -/
def greedyNonCapturingGroupEnd (bc str : Nat) (st : Matcher) : Option Next := do
  let (groupIdx, bc) ← getValue code bc
  let group ← st.nonCaptures[groupIdx.toNat]?
  let (qmin, bc) ← getValue code bc
  if group.iterator < qmin then do
    let st ← st.updateNonCapture groupIdx.toNat fun c => { c with beginP := some str }
    let st ← st.clearBegins group.subcaptureStart.toNat group.subcaptureCount.toNat
    let st ← st.updateNonCapture groupIdx.toNat fun c => { c with iterator := c.iterator + 1#32 }
    let (matched, st) ← call group.bc str st
    Next.orElse matched st fun st => do
      let st ← st.updateNonCapture groupIdx.toNat fun c => { c with iterator := c.iterator - 1#32 }
      some (.fail st)
  else if atOrBehind group.beginP str ∧ qmin < group.iterator then some (.fail st)
  else do
    let (qmax, bc) ← getValue code bc
    if qmax - qmaxOffset ≤ group.iterator then runTail call bc str st fun st => some (.fail st)
    else
      iterateNonCapturing call groupIdx.toNat group str st fun st =>
        runTail call bc str st fun st => some (.fail st)

/-- `RE_OP_LAZY_CAPTURING_GROUP_END`. -/
def lazyCapturingGroupEnd (bc str : Nat) (st : Matcher) : Option Next := do
  let (groupIdx, bc) ← getValue code bc
  let group ← st.captures[groupIdx.toNat]?
  let (qmin, bc) ← getValue code bc
  if group.iterator < qmin then iterateCapturingBelow call groupIdx.toNat group str st
  else if atOrBehind group.beginP str ∧ qmin < group.iterator then some (.fail st)
  else do
    let (qmax, bc) ← getValue code bc
    let st ← st.updateCapture groupIdx.toNat fun c => { c with endP := some str }
    runTail call bc str st fun st => do
      -- the tail may have changed the group
      let group ← st.captures[groupIdx.toNat]?
      if qmax - qmaxOffset ≤ group.iterator then some (.fail st)
      else iterateCapturing call groupIdx.toNat group str st fun st => some (.fail st)

/-- `RE_OP_LAZY_NON_CAPTURING_GROUP_END`. -/
def lazyNonCapturingGroupEnd (bc str : Nat) (st : Matcher) : Option Next := do
  let (groupIdx, bc) ← getValue code bc
  let group ← st.nonCaptures[groupIdx.toNat]?
  let (qmin, bc) ← getValue code bc
  if group.iterator < qmin then do
    let st ← st.clearBegins group.subcaptureStart.toNat group.subcaptureCount.toNat
    let st ← st.updateNonCapture groupIdx.toNat fun c => { c with iterator := c.iterator + 1#32 }
    let (matched, st) ← call group.bc str st
    Next.orElse matched st fun st => do
      let st ← st.updateNonCapture groupIdx.toNat fun c => { c with iterator := c.iterator - 1#32 }
      some (.fail st)
  else if atOrBehind group.beginP str ∧ qmin < group.iterator then some (.fail st)
  else do
    let (qmax, bc) ← getValue code bc
    runTail call bc str st fun st => do
      -- the tail may have changed the group
      let group ← st.nonCaptures[groupIdx.toNat]?
      if qmax - qmaxOffset ≤ group.iterator then some (.fail st)
      else iterateNonCapturing call groupIdx.toNat group str st fun st => some (.fail st)

/-- The first loop of the character iterators: so many matches of the atom. -/
def iterateAtom (bc : Nat) : Nat → Nat → Matcher → Option Result
  | 0, str, st => some (some str, st)
  | count + 1, str, st => do
    let (matched, st) ← call bc str st
    match matched with
    | none => some (none, st)
    | some str => iterateAtom bc count str st

/-- The second loop of `RE_OP_GREEDY_ITERATOR`: the address where the atom does not match any more or the maximum is
reached, and the number of matches. -/
def iterateGreedy (bc : Nat) : Nat → Nat → Nat → Matcher → Option (Nat × Nat × Matcher)
  | 0, str, iterator, st => some (str, iterator, st)
  | count + 1, str, iterator, st => do
    let (matched, st) ← call bc str st
    match matched with
    | none => some (str, iterator, st)
    | some str => iterateGreedy bc count str (iterator + 1) st

/-- The third loop of `RE_OP_GREEDY_ITERATOR`: the tail from every address on the way back. -/
def stepBackTails (bc : Nat) : Nat → Nat → Matcher → Option Next
  | 0, str, st => runTail call bc str st fun st => some (.fail st)
  | count + 1, str, st =>
    runTail call bc str st fun st => stepBackTails bc count (ecmaRegexpStepBack subject.memory flags str) st

/-- `RE_OP_GREEDY_ITERATOR`. -/
def greedyIterator (bc str : Nat) (st : Matcher) : Option Next := do
  let (qmin, bc) ← getValue code bc
  let (qmax, bc) ← getValue code bc
  let (endOffset, bc) ← getValue code bc
  let (matched, st) ← iterateAtom call bc qmin.toNat str st
  match matched with
  | none => some (.fail st)
  | some str => do
    let (str, iterator, st) ← iterateGreedy call bc ((qmax - qmaxOffset).toNat - qmin.toNat) str qmin.toNat st
    stepBackTails flags subject call (bc + endOffset.toNat) (iterator - qmin.toNat) str st

/-- The second loop of `RE_OP_LAZY_ITERATOR`. -/
def iterateLazy (bc tail : Nat) : Nat → Nat → Matcher → Option Next
  | 0, str, st => runTail call tail str st fun st => some (.fail st)
  | count + 1, str, st =>
    runTail call tail str st fun st => do
      let (matched, st) ← call bc str st
      match matched with
      | none => some (.fail st)
      | some str => iterateLazy bc tail count str st

/-- `RE_OP_LAZY_ITERATOR`. -/
def lazyIterator (bc str : Nat) (st : Matcher) : Option Next := do
  let (qmin, bc) ← getValue code bc
  let (qmax, bc) ← getValue code bc
  let (endOffset, bc) ← getValue code bc
  let (matched, st) ← iterateAtom call bc qmin.toNat str st
  match matched with
  | none => some (.fail st)
  | some str => iterateLazy call bc (bc + endOffset.toNat) ((qmax - qmaxOffset).toNat - qmin.toNat) str st

/-- `memcmp` of two parts of the input, of the same size. -/
def sameBytes (p q : Nat) : Nat → Bool
  | 0 => true
  | size + 1 => subject.memory p == subject.memory q && sameBytes (p + 1) (q + 1) size

/-- `RE_OP_BACKREFERENCE`. -/
def backreference (bc str : Nat) (st : Matcher) : Option Next := do
  let (backrefIdx, bc) ← getValue code bc
  let capture ← st.captures[backrefIdx.toNat]?
  match capture.beginP, capture.endP with
  | some beginP, some endP =>
    if endP ≤ beginP then some (.goOn bc str st)
    else if subject.inputEnd < str + (endP - beginP) ∨ sameBytes subject str beginP (endP - beginP) = false then
      some (.fail st)
    else some (.goOn bc (str + (endP - beginP)) st)
  | _, _ => some (.goOn bc str st)

/-- `RE_OP_ASSERT_LINE_START`. -/
def assertLineStart (bc str : Nat) (st : Matcher) : Next :=
  if str ≤ subject.inputStart then .goOn bc str st
  else if flags.multiline = false ∨ litCharIsLineTerminator (litCesu8PeekPrev subject.memory str) = false then .fail st
  else .goOn bc str st

/-- `RE_OP_ASSERT_LINE_END`. -/
def assertLineEnd (bc str : Nat) (st : Matcher) : Next :=
  if subject.inputEnd ≤ str then .goOn bc str st
  else if flags.multiline = false ∨ litCharIsLineTerminator (litCesu8PeekNext subject.memory str) = false then .fail st
  else .goOn bc str st

/-- `RE_OP_ASSERT_LOOKAHEAD_POS`. -/
def assertLookaheadPos (bc str : Nat) (st : Matcher) : Option Next := do
  let (qmin, bc) ← getByte code bc
  let (captureStart, bc) ← getValue code bc
  let (captureCount, bc) ← getValue code bc
  let (endOffset, bc) ← getValue code bc
  if qmin = 0#8 then some (.goOn (bc + endOffset.toNat) str st)
  else do
    let saved := st.savedEnds captureStart.toNat captureCount.toNat
    let (matched, st) ← call bc str st
    match matched with
    | none => some (.fail st)
    | some _ =>
      runTail call (bc + endOffset.toNat) str st fun st => do
        let st ← st.restoreEnds captureStart.toNat saved
        some (.fail st)

/-- `RE_OP_ASSERT_LOOKAHEAD_NEG`. -/
def assertLookaheadNeg (bc str : Nat) (st : Matcher) : Option Next := do
  let (qmin, bc) ← getByte code bc
  let (captureIdx, bc) ← getValue code bc
  let (captureCount, bc) ← getValue code bc
  let (endOffset, bc) ← getValue code bc
  if qmin = 0#8 then some (.goOn (bc + endOffset.toNat) str st)
  else do
    let (matched, st) ← call bc str st
    match matched with
    | none => some (.goOn (bc + endOffset.toNat) str st)
    | some _ => do
      let st ← st.clearBegins captureIdx.toNat captureCount.toNat
      some (.fail st)

/-- `RE_OP_CLASS_ESCAPE`. -/
def classEscape (bc str : Nat) (st : Matcher) : Option Next :=
  if subject.inputEnd ≤ str then some (.fail st)
  else do
    let (cp, str) := ecmaRegexpAdvance tables flags subject str
    let (escape, bc) ← getByte code bc
    let escape ← ClassEscape.ofByte escape
    some (if ecmaRegexpCheckClassEscape cp escape then .goOn bc str st else .fail st)

/-! ### Character classes -/

/-- The bits of `ecma_char_class_flags_t` in the flags of a class. -/
def hasChars (classFlags : Byte) : Bool := classFlags &&& 0x20#8 != 0#8

@[inherit_doc hasChars]
def hasRanges (classFlags : Byte) : Bool := classFlags &&& 0x40#8 != 0#8

@[inherit_doc hasChars]
def isInverted (classFlags : Byte) : Bool := classFlags &&& 0x80#8 != 0#8

/-- A number that is stored when the flags say so, and is zero otherwise. -/
def classCount (present : Bool) (bc : Nat) : Option (BitVec 32 × Nat) :=
  if present then getValue code bc else some (0#32, bc)

/-- `re_ctx_p->char_size`. -/
def charSize : Nat := if flags.unicode then 4 else 2

/-- The loop over the class escapes: whether one of them matches, the number of those behind it, and the position. -/
def matchEscapes (cp : CodePoint) : Nat → Nat → Option (Bool × Nat × Nat)
  | 0, bc => some (false, 0, bc)
  | count + 1, bc => do
    let (escape, bc) ← getByte code bc
    let escape ← ClassEscape.ofByte escape
    if ecmaRegexpCheckClassEscape cp escape then some (true, count, bc) else matchEscapes cp count bc

/-- The loop over the characters, with the same results. -/
def matchChars (cp : CodePoint) : Nat → Nat → Option (Bool × Nat × Nat)
  | 0, bc => some (false, 0, bc)
  | count + 1, bc => do
    let (curr, bc) ← getChar code bc flags.unicode
    if cp = curr then some (true, count, bc) else matchChars cp count bc

/-- The loop over the ranges, with the same results. -/
def matchRanges (cp : CodePoint) : Nat → Nat → Option (Bool × Nat × Nat)
  | 0, bc => some (false, 0, bc)
  | count + 1, bc => do
    let (start, bc) ← getChar code bc flags.unicode
    if cp < start then matchRanges cp count (bc + charSize flags)
    else do
      let (stop, bc) ← getChar code bc flags.unicode
      if cp ≤ stop then some (true, count, bc) else matchRanges cp count bc

/-- `class_found`. -/
def classFound (inverted : Bool) (escapeCount charCount rangeCount bc str : Nat) (st : Matcher) : Next :=
  if inverted then .fail st
  else .goOn (bc + escapeCount + charCount * charSize flags + rangeCount * charSize flags * 2) str st

/-- `RE_OP_CHAR_CLASS`. -/
def charClass (bc str : Nat) (st : Matcher) : Option Next :=
  if subject.inputEnd ≤ str then some (.fail st)
  else do
    let (classFlags, bc) ← getByte code bc
    let (charCount, bc) ← classCount code (hasChars classFlags) bc
    let (rangeCount, bc) ← classCount code (hasRanges classFlags) bc
    let (cp, str) := ecmaRegexpAdvance tables flags subject str
    let (found, escapeCount, bc) ← matchEscapes code cp (classFlags &&& 0x07#8).toNat bc
    if found then
      some (classFound flags (isInverted classFlags) escapeCount charCount.toNat rangeCount.toNat bc str st)
    else do
      let (found, charCount, bc) ← matchChars flags code cp charCount.toNat bc
      if found then some (classFound flags (isInverted classFlags) 0 charCount rangeCount.toNat bc str st)
      else do
        let (found, rangeCount, bc) ← matchRanges flags code cp rangeCount.toNat bc
        if found then some (classFound flags (isInverted classFlags) 0 0 rangeCount bc str st)
        else some (if isInverted classFlags then .goOn bc str st else .fail st)

/-! ### The other characters -/

/-- `RE_OP_UNICODE_PERIOD`. -/
def unicodePeriod (bc str : Nat) (st : Matcher) : Next :=
  if subject.inputEnd ≤ str then .fail st
  else
    let (cp, str) := ecmaRegexpUnicodeAdvance subject.memory str subject.inputEnd
    if flags.dotAll = false ∧ cp ≤ 0xffff#32 ∧ litCharIsLineTerminator (cp.setWidth 16) then .fail st
    else .goOn bc str st

/-- `RE_OP_PERIOD`. -/
def period (bc str : Nat) (st : Matcher) : Next :=
  if subject.inputEnd ≤ str then .fail st
  else
    let (ch, str) := litCesu8ReadNext subject.memory str
    if flags.dotAll = false ∧ litCharIsLineTerminator ch then .fail st else .goOn bc str st

/-- `RE_OP_CHAR`. -/
def char (bc str : Nat) (st : Matcher) : Option Next :=
  if subject.inputEnd ≤ str then some (.fail st)
  else do
    let (ch1, bc) ← getChar code bc flags.unicode
    let (ch2, str) := ecmaRegexpAdvance tables flags subject str
    some (if ch1 ≠ ch2 then .fail st else .goOn bc str st)

/-- `RE_OP_BYTE`. -/
def byte (bc str : Nat) (st : Matcher) : Option Next :=
  if subject.inputEnd ≤ str then some (.fail st)
  else do
    let (b, bc) ← getByte code bc
    some (if b ≠ subject.memory str then .fail st else .goOn bc (str + 1) st)

/-- The cases of `ecma_regexp_run`. -/
def instruction (op : Opcode) (bc str : Nat) (st : Matcher) : Option Next :=
  match op with
  | .eof => do
    let st ← st.updateCapture 0 fun c => { c with endP := some str }
    some (.return (some str) st)
  | .assertEnd | .iteratorEnd => some (.return (some str) st)
  | .alternativeStart => do
    let (offset, bc) ← getValue code bc
    some (.alternatives (bc + offset.toNat) bc str st)
  | .alternativeNext => do
    let bc ← skipAlternatives code (code.length + 1) bc
    some (.goOn bc str st)
  | .noAlternative => some (.return none st)
  | .capturingGroupStart => capturingGroupStart code call bc str st
  | .nonCapturingGroupStart => nonCapturingGroupStart code call bc str st
  | .greedyCapturingGroupEnd => greedyCapturingGroupEnd code call bc str st
  | .greedyNonCapturingGroupEnd => greedyNonCapturingGroupEnd code call bc str st
  | .lazyCapturingGroupEnd => lazyCapturingGroupEnd code call bc str st
  | .lazyNonCapturingGroupEnd => lazyNonCapturingGroupEnd code call bc str st
  | .greedyIterator => greedyIterator flags subject code call bc str st
  | .lazyIterator => lazyIterator code call bc str st
  | .backreference => backreference subject code bc str st
  | .assertLineStart => some (assertLineStart flags subject bc str st)
  | .assertLineEnd => some (assertLineEnd flags subject bc str st)
  | .assertWordBoundary =>
    some (if ecmaRegexpIsWordBoundary tables flags subject str then .goOn bc str st else .fail st)
  | .assertNotWordBoundary =>
    some (if ecmaRegexpIsWordBoundary tables flags subject str then .fail st else .goOn bc str st)
  | .assertLookaheadPos => assertLookaheadPos code call bc str st
  | .assertLookaheadNeg => assertLookaheadNeg code call bc str st
  | .classEscape => classEscape tables flags subject code bc str st
  | .charClass => charClass tables flags subject code bc str st
  | .unicodePeriod => some (unicodePeriod flags subject bc str st)
  | .period => some (period flags subject bc str st)
  | .char => char tables flags subject code bc str st
  | .byte => byte subject code bc str st

/-! ## The loop -/

/-- The loop of `ecma_regexp_run`, with `next_alternative_p`. -/
def runLoop (strStart : Nat) : Nat → Option Nat → Nat → Nat → Matcher → Option Result
  | 0, _, _, _, _ => none
  | steps + 1, nextAlternative, bc, str, st => do
    let (op, bc) ← getOpcode code bc
    match ← instruction tables flags subject code call op bc str st with
    | .goOn bc str st => runLoop strStart steps nextAlternative bc str st
    | .alternatives nextAlternative bc str st => runLoop strStart steps (some nextAlternative) bc str st
    | .return matched st => some (matched, st)
    | .fail st =>
      match nextAlternative with
      | none => some (none, st)
      | some bc => do
        let (op, bc) ← getByte code bc
        if op ≠ Opcode.alternativeNext.toByte then some (none, st)
        else do
          let (offset, bc) ← getValue code bc
          runLoop strStart steps (some (bc + offset.toNat)) bc strStart st

/-- `ecma_regexp_run`. -/
def ecmaRegexpRun : Nat → Call
  | 0 => fun _ _ _ => none
  | depth + 1 => fun bc str st =>
    runLoop tables flags subject code (ecmaRegexpRun depth) str (depth + 1) none bc str st

theorem ecmaRegexpRun_succ (depth bc str : Nat) (st : Matcher) :
    ecmaRegexpRun tables flags subject code (depth + 1) bc str st =
      runLoop tables flags subject code (ecmaRegexpRun tables flags subject code depth) str (depth + 1) none bc str st :=
  rfl

end

end Regexp
end JJS
