import JJS.Lib.Paged
import JJS.Lib.Outcome

/-!
# JJS.ParserStack.Basic

The stack of the parser (`js-parser-mem.c`): bytes in a list of pages. A page that gets empty is kept for the next time that
a page is needed, unless there is one already.

Pages are known by numbers. An operation that may need a new page takes as `offered` what `parser_malloc_scratch` gives,
and raises an error when this is null. `live` has the pages that were given and not freed.
-/

namespace JJS
namespace ParserStack

open Paged (Page store)

abbrev Byte : Type := BitVec 8

/-- `PARSER_STACK_PAGE_SIZE`: what the pointer to the next page leaves of 128 or 64 bytes. -/
def parserStackPageSize (pointer64 : Bool) : Nat := if pointer64 then 128 - 8 else 64 - 4

/-- An assertion that fails, or an access through a null pointer; and the error that is raised when there is no page. -/
inductive Failure where
  | undefined
  | outOfMemory
deriving DecidableEq

/-- What the stack has of `parser_context_t`, and the pages in memory. -/
structure ParserContext where
  pages : Nat → Page Byte
  live : List Nat
  first : Option Nat
  lastPosition : Nat
  freePage : Option Nat
  stackTopUint8 : Byte

/-! ## Pages -/

def deref (page : Option Nat) : Except Failure Nat :=
  match page with
  | some page => .ok page
  | none => .error .undefined

namespace ParserContext

/-- The byte at `last_position - 1` of a page. -/
def lastByte (context : ParserContext) (page : Nat) : Byte := (context.pages page).cells (context.lastPosition - 1)

/-- The first page, which must end with `stack_top_uint8`. -/
def topPage (context : ParserContext) : Except Failure Nat :=
  match context.first with
  | some page => if context.stackTopUint8 = context.lastByte page then .ok page else .error .undefined
  | none => .error .undefined

/-- Bytes are copied to a page. -/
def writeBytes (context : ParserContext) (page offset : Nat) (data : List Byte) : ParserContext :=
  { context with
    pages := Function.update context.pages page
      { context.pages page with cells := store (context.pages page).cells offset data } }

/-- The page in reserve, or a new one. -/
def takePage (context : ParserContext) (offered : Option Nat) : Except Failure (Nat × ParserContext) :=
  match context.freePage with
  | some page => .ok (page, { context with freePage := none })
  | none =>
    match offered with
    | some page => .ok (page, { context with live := page :: context.live })
    | none => .error .outOfMemory

/-- A page is put in front of the others. -/
def linkPage (context : ParserContext) (page : Nat) : ParserContext :=
  { context with
    pages := Function.update context.pages page { context.pages page with next := context.first }
    first := some page }

/-- A page that is empty is kept, or freed. -/
def keepPage (context : ParserContext) (page : Nat) : ParserContext :=
  match context.freePage with
  | none => { context with freePage := some page }
  | some _ => { context with live := context.live.erase page }

end ParserContext

open ParserContext

/-! ## The stack -/

section Stack

variable (size : Nat)

/-- `parser_stack_init`. -/
def parserStackInit (context : ParserContext) : ParserContext :=
  { context with first := none, lastPosition := size, freePage := none }

/-- `parser_stack_push_uint8`. -/
def parserStackPushUint8 (offered : Option Nat) (context : ParserContext) (value : Byte) : Except Failure ParserContext := do
  if context.first.all fun page => context.stackTopUint8 = context.lastByte page then
    let context ←
      if size ≤ context.lastPosition then do
        let (page, context) ← context.takePage offered
        pure { context.linkPage page with lastPosition := 0 }
      else pure context
    let page ← deref context.first
    pure { context.writeBytes page context.lastPosition [value] with
      lastPosition := context.lastPosition + 1
      stackTopUint8 := value }
  else throw .undefined

/-- `parser_stack_pop_uint8`. -/
def parserStackPopUint8 (context : ParserContext) : Except Failure ParserContext := do
  let page ← context.topPage
  let context := { context with lastPosition := context.lastPosition - 1 }
  if context.lastPosition = 0 then
    let context := { context.keepPage page with first := (context.pages page).next, lastPosition := size }
    let page ← deref context.first
    pure { context with stackTopUint8 := context.lastByte page }
  else pure { context with stackTopUint8 := context.lastByte page }

/-- `parser_stack_change_last_uint8`. -/
def parserStackChangeLastUint8 (context : ParserContext) (newValue : Byte) : Except Failure ParserContext := do
  let page ← context.topPage
  pure { context.writeBytes page (context.lastPosition - 1) [newValue] with stackTopUint8 := newValue }

/-- `parser_stack_push_uint16`. -/
def parserStackPushUint16 (offered : Option Nat) (context : ParserContext) (value : BitVec 16) :
    Except Failure ParserContext := do
  let high := (value >>> 8).setWidth 8
  let low := value.setWidth 8
  if context.lastPosition + 2 ≤ size then
    let page ← context.topPage
    let context := { context.writeBytes page context.lastPosition [high] with lastPosition := context.lastPosition + 1 }
    let context := { context.writeBytes page context.lastPosition [low] with lastPosition := context.lastPosition + 1 }
    pure { context with stackTopUint8 := low }
  else
    let context ← parserStackPushUint8 size offered context high
    parserStackPushUint8 size offered context low

/-- `parser_stack_pop_uint16`. -/
def parserStackPopUint16 (context : ParserContext) : Except Failure (ParserContext × BitVec 16) := do
  let value : BitVec 32 := context.stackTopUint8.setWidth 32
  if 3 ≤ context.lastPosition then
    let page ← context.topPage
    let value := value ||| ((context.pages page).cells (context.lastPosition - 2)).setWidth 32 <<< 8
    pure ({ context with
      stackTopUint8 := (context.pages page).cells (context.lastPosition - 3)
      lastPosition := context.lastPosition - 2 }, value.setWidth 16)
  else
    let context ← parserStackPopUint8 size context
    let value := value ||| context.stackTopUint8.setWidth 32 <<< 8
    let context ← parserStackPopUint8 size context
    pure (context, value.setWidth 16)

/-- The part of `parser_stack_push` for a new page. -/
def pushFragment (offered : Option Nat) (context : ParserContext) (data : List Byte) : Except Failure ParserContext := do
  let (page, context) ← context.takePage offered
  pure { (context.linkPage page).writeBytes page 0 data with lastPosition := data.length }

/-- `parser_stack_push`. -/
def parserStackPush (offered : Option Nat) (context : ParserContext) (data : List Byte) : Except Failure ParserContext := do
  let fragmentLength := size - context.lastPosition
  if data.length < size ∧ 0 < data.length then
    let context := { context with stackTopUint8 := data.getD (data.length - 1) 0#8 }
    if 0 < fragmentLength then
      let fragmentLength := if data.length < fragmentLength then data.length else fragmentLength
      let page ← deref context.first
      let context := context.writeBytes page context.lastPosition (data.take fragmentLength)
      if fragmentLength = data.length then pure { context with lastPosition := context.lastPosition + data.length }
      else pushFragment offered context (data.drop fragmentLength)
    else pushFragment offered context data
  else throw .undefined

/-- `parser_stack_pop`, with the bytes that it copies to a buffer. -/
def parserStackPop (context : ParserContext) (length : Nat) : Except Failure (ParserContext × List Byte) := do
  if length < size ∧ 0 < length then
    let page ← deref context.first
    if length < context.lastPosition then
      let context := { context with lastPosition := context.lastPosition - length }
      pure ({ context with stackTopUint8 := context.lastByte page },
        Paged.segment (context.pages page).cells context.lastPosition length)
    else
      let next ← deref (context.pages page).next
      let length := length - context.lastPosition
      let upper := Paged.segment (context.pages page).cells 0 context.lastPosition
      let context := { context with first := some next, lastPosition := size - length }
      let context := { context with stackTopUint8 := context.lastByte next }
      let lower := Paged.segment (context.pages next).cells context.lastPosition length
      if 0 < context.lastPosition then pure (context.keepPage page, lower ++ upper) else throw .undefined
  else throw .undefined

end Stack

/-! ## The iterator -/

/-- `parser_stack_iterator_t`. -/
structure Iterator where
  current : Option Nat
  currentPosition : Nat

/-- `parser_stack_iterator_init`. -/
def parserStackIteratorInit (context : ParserContext) : Iterator := ⟨context.first, context.lastPosition⟩

section Iterator

variable (size : Nat)

/-- `parser_stack_iterator_read_uint8`. -/
def parserStackIteratorReadUint8 (context : ParserContext) (iterator : Iterator) : Except Failure Byte := do
  if 0 < iterator.currentPosition ∧ iterator.currentPosition ≤ size then
    let page ← deref iterator.current
    pure ((context.pages page).cells (iterator.currentPosition - 1))
  else throw .undefined

/-- `parser_stack_iterator_skip`. -/
def parserStackIteratorSkip (context : ParserContext) (iterator : Iterator) (length : Nat) : Except Failure Iterator := do
  if length < size ∧ 0 < length then
    if length < iterator.currentPosition then
      pure { iterator with currentPosition := iterator.currentPosition - length }
    else
      let page ← deref iterator.current
      pure ⟨(context.pages page).next, size - (length - iterator.currentPosition)⟩
  else throw .undefined

/-- `parser_stack_iterator_read`. -/
def parserStackIteratorRead (context : ParserContext) (iterator : Iterator) (length : Nat) : Except Failure (List Byte) := do
  if length < size ∧ 0 < length then
    let page ← deref iterator.current
    if length ≤ iterator.currentPosition then
      pure (Paged.segment (context.pages page).cells (iterator.currentPosition - length) length)
    else
      let next ← deref (context.pages page).next
      let length := length - iterator.currentPosition
      let upper := Paged.segment (context.pages page).cells 0 iterator.currentPosition
      pure (Paged.segment (context.pages next).cells (size - length) length ++ upper)
  else throw .undefined

/-- `parser_stack_iterator_write`. -/
def parserStackIteratorWrite (context : ParserContext) (iterator : Iterator) (data : List Byte) :
    Except Failure ParserContext := do
  if data.length < size ∧ 0 < data.length then
    let page ← deref iterator.current
    if data.length ≤ iterator.currentPosition then
      pure (context.writeBytes page (iterator.currentPosition - data.length) data)
    else
      let next ← deref (context.pages page).next
      let length := data.length - iterator.currentPosition
      let context := context.writeBytes page 0 (data.drop length)
      pure (context.writeBytes next (size - length) (data.take length))
  else throw .undefined

end Iterator

end ParserStack
end JJS
