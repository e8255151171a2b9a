import JJS.ParserStack.Operations
import Mathlib.Data.Finset.Basic
import Mathlib.Data.Fintype.EquivFin

/-!
# JJS.ParserStack.Runs

The stack of the parser next to a list of bytes, and its iterator. As long as the stack does not get empty, the bytes of
the stack are those of the list after the same operations, whatever pages they lie in (`parser_stack_refines`).
-/

namespace JJS
namespace ParserStack

open Paged (Page store Linked Rest Same)
open Outcome (Ensures)

variable {size : Nat} {context : ParserContext} {ids : List Nat} {stack : List Byte} {offered : Option Nat}

/-! ## The iterator -/

/-- An iterator with the bytes `above` it skipped. -/
def IteratorAt (size : Nat) (context : ParserContext) (ids : List Nat) (iterator : Iterator) (l above : List Byte) : Prop :=
  ∃ rest, Rest size context.pages context.first context.lastPosition ids (l ++ above) iterator.current
    iterator.currentPosition rest l above

variable {iterator : Iterator} {l above : List Byte}

theorem iterator_init (h : Holds size context ids stack) :
    IteratorAt size context ids (parserStackIteratorInit context) stack [] :=
  ⟨ids, by rw [List.append_nil]; exact Rest.start h.linked h.nodup⟩

theorem IteratorAt.current (h : IteratorAt size context ids iterator l above) (hne : l ≠ []) :
    ∃ p, iterator.current = some p := by
  obtain ⟨rest, hrest⟩ := h
  cases hcurrent : iterator.current with
  | some p => exact ⟨p, rfl⟩
  | none => exact absurd (hrest.linked.empty hcurrent).2 hne

theorem IteratorAt.readUint8 (h : IteratorAt size context ids iterator l above) (hsize : 0 < size) {b : Byte}
    (hlast : l.getLast? = some b) : parserStackIteratorReadUint8 size context iterator = .ok b := by
  have hne : l ≠ [] := by
    intro hnil
    rw [hnil] at hlast
    cases hlast
  obtain ⟨p, hcurrent⟩ := h.current hne
  obtain ⟨rest, hrest⟩ := h
  have hlinked := hrest.linked
  rw [hcurrent] at hlinked
  have hlast' := hlinked.last
  rw [hlast] at hlast'
  rw [parserStackIteratorReadUint8, if_pos ⟨hlinked.position_pos hsize, hlinked.position_le⟩, hcurrent,
    Option.some.inj hlast']
  rfl

theorem IteratorAt.skip (h : IteratorAt size context ids iterator l above) {length : Nat} (hpos : 0 < length)
    (hsize : length < size) (hlength : length ≤ l.length) :
    ∃ iterator', parserStackIteratorSkip size context iterator length = .ok iterator' ∧
      IteratorAt size context ids iterator' (l.take (l.length - length)) (l.drop (l.length - length) ++ above) := by
  obtain ⟨p, hcurrent⟩ := h.current (by intro hnil; rw [hnil, List.length_nil] at hlength; omega)
  obtain ⟨rest, hrest⟩ := h
  have hstack : l.take (l.length - length) ++ (l.drop (l.length - length) ++ above) = l ++ above := by
    rw [← List.append_assoc, List.take_append_drop]
  rw [parserStackIteratorSkip, if_pos ⟨hsize, hpos⟩]
  by_cases hwithin : length < iterator.currentPosition
  · rw [hcurrent] at hrest
    have hmoved := hrest.within hwithin
    rw [if_pos hwithin]
    refine ⟨_, rfl, rest, ?_⟩
    rw [hstack, hcurrent]
    exact hmoved
  · obtain ⟨p', rest', hcurrent', -, hmoved⟩ := hrest.across (Nat.le_of_not_lt hwithin) hlength hsize
    rw [if_neg hwithin, hcurrent']
    refine ⟨_, rfl, rest', ?_⟩
    rw [hstack]
    exact hmoved

theorem IteratorAt.read (h : IteratorAt size context ids iterator l above) {length : Nat} (hpos : 0 < length)
    (hsize : length < size) (hlength : length ≤ l.length) :
    parserStackIteratorRead size context iterator length = .ok (l.drop (l.length - length)) := by
  obtain ⟨p, hcurrent⟩ := h.current (by intro hnil; rw [hnil, List.length_nil] at hlength; omega)
  obtain ⟨rest, hrest⟩ := h
  have hlinked := hrest.linked
  rw [parserStackIteratorRead, if_pos ⟨hsize, hpos⟩, hcurrent]
  simp only [deref, bind, Except.bind]
  by_cases hwithin : length < iterator.currentPosition
  · rw [hcurrent] at hlinked
    rw [if_pos (Nat.le_of_lt hwithin), (hlinked.within hwithin).2.2]
    rfl
  · obtain ⟨p', rest', hcurrent', -, -, hdrop⟩ := hlinked.across (Nat.le_of_not_lt hwithin) hlength hsize
    rw [hcurrent] at hcurrent'
    cases hcurrent'
    cases hdrop with
    | inl hend =>
      rw [if_pos (Nat.le_of_eq hend.2), hend.1, hend.2, Nat.sub_self]
      rfl
    | inr hnext =>
      obtain ⟨q, hq, hcells⟩ := hnext
      by_cases hend : length ≤ iterator.currentPosition
      · have heq : length = iterator.currentPosition := by omega
        rw [if_pos hend, hcells, heq, Nat.sub_self, Paged.segment_zero, List.nil_append]
        rfl
      · rw [if_neg hend, hq, hcells]
        rfl

/-- What is written lies below what was skipped, and takes the place of as many bytes. -/
theorem IteratorAt.write (h : IteratorAt size context ids iterator l above) {data : List Byte} (hpos : 0 < data.length)
    (hsize : data.length < size) (hlength : data.length ≤ l.length) :
    ∃ pages, parserStackIteratorWrite size context iterator data = .ok { context with pages := pages } ∧
      IteratorAt size { context with pages := pages } ids iterator (l.take (l.length - data.length) ++ data) above ∧
      ∀ p, p ∉ ids → pages p = context.pages p := by
  obtain ⟨p, hcurrent⟩ := h.current (by intro hnil; rw [hnil, List.length_nil] at hlength; omega)
  obtain ⟨rest, hrest⟩ := h
  have hlinked := hrest.linked
  rw [hcurrent] at hlinked
  have hothers : ∀ pages, Same context.pages pages (some p) iterator.currentPosition rest →
      ∀ p, p ∉ ids → pages p = context.pages p :=
    fun pages hsame p hp => hsame.others p fun hin => hp (hrest.subset hin)
  rw [parserStackIteratorWrite, if_pos ⟨hsize, hpos⟩, hcurrent]
  simp only [deref, bind, Except.bind]
  by_cases hwithin : data.length ≤ iterator.currentPosition
  · obtain ⟨hsame, hwritten⟩ := hlinked.overwrite hrest.nodup hwithin
    rw [if_pos hwithin]
    refine ⟨_, rfl, ⟨rest, ?_⟩, hothers _ hsame⟩
    rw [← hcurrent] at hsame hwritten
    exact hrest.changed hsame hwritten
  · obtain ⟨q, hq, hpages⟩ := hlinked.overwrite_across hrest.nodup (Nat.lt_of_not_le hwithin) hlength hsize
    obtain ⟨hsame, hwritten⟩ := hpages _ _ rfl rfl
    rw [if_neg hwithin, hq]
    refine ⟨_, rfl, ⟨rest, ?_⟩, hothers _ hsame⟩
    rw [← hcurrent] at hsame hwritten
    exact hrest.changed hsame hwritten

/-- The stack below and above an iterator. -/
theorem IteratorAt.linked (h : IteratorAt size context ids iterator l above) :
    Linked size context.pages context.first context.lastPosition ids (l ++ above) := by
  obtain ⟨rest, hrest⟩ := h
  exact hrest.put context.pages l ⟨fun _ => rfl, fun _ _ => rfl, fun _ _ _ _ => rfl⟩ hrest.linked

/-- An iterator that skipped `k` bytes of `n`. -/
inductive Skipped (size : Nat) (context : ParserContext) (n : Nat) : Nat → Iterator → Prop where
  | init : Skipped size context n 0 (parserStackIteratorInit context)
  | skip {k length : Nat} {iterator iterator' : Iterator} (hskipped : Skipped size context n k iterator) (hpos : 0 < length)
      (hsize : length < size) (hlength : k + length ≤ n)
      (hskip : parserStackIteratorSkip size context iterator length = .ok iterator') :
      Skipped size context n (k + length) iterator'

theorem Skipped.at {k : Nat} (h : Holds size context ids stack) (hskipped : Skipped size context stack.length k iterator) :
    k ≤ stack.length ∧
      IteratorAt size context ids iterator (stack.take (stack.length - k)) (stack.drop (stack.length - k)) := by
  induction hskipped with
  | init =>
    rw [Nat.sub_zero, List.take_length, List.drop_length]
    exact ⟨Nat.zero_le _, iterator_init h⟩
  | @skip k length iterator iterator' _ hpos hsize hlength hskip ih =>
    obtain ⟨-, hat⟩ := ih
    have hleft : (stack.take (stack.length - k)).length = stack.length - k := by
      rw [List.length_take]
      omega
    obtain ⟨iterator'', hskip', hat'⟩ := hat.skip hpos hsize (by omega)
    rw [hskip] at hskip'
    cases hskip'
    rw [hleft, List.take_take, List.drop_take, Nat.min_eq_left (by omega)] at hat'
    have hdrop : (stack.drop (stack.length - k - length)).take (stack.length - k - (stack.length - k - length)) ++
        stack.drop (stack.length - k) = stack.drop (stack.length - (k + length)) := by
      have hsplit := List.take_append_drop (stack.length - k - (stack.length - k - length))
        (stack.drop (stack.length - k - length))
      rw [List.drop_drop, show stack.length - k - length + (stack.length - k - (stack.length - k - length)) =
        stack.length - k by omega] at hsplit
      rw [hsplit, Nat.sub_sub]
    rw [hdrop, Nat.sub_sub] at hat'
    exact ⟨hlength, hat'⟩

/-! ## Operations on a list -/

inductive Operation where
  | pushUint8 (value : Byte)
  | pushUint16 (value : BitVec 16)
  | push (data : List Byte)
  | popUint8
  | popUint16
  | pop (length : Nat)
  | changeLastUint8 (newValue : Byte)

/-- What an operation gives back. -/
inductive Output where
  | nothing
  | uint16 (value : BitVec 16)
  | bytes (data : List Byte)

def Operation.run (size : Nat) (offered : Option Nat) (context : ParserContext) :
    Operation → Except Failure (ParserContext × Output)
  | .pushUint8 value => (parserStackPushUint8 size offered context value).map (·, .nothing)
  | .pushUint16 value => (parserStackPushUint16 size offered context value).map (·, .nothing)
  | .push data => (parserStackPush size offered context data).map (·, .nothing)
  | .popUint8 => (parserStackPopUint8 size context).map (·, .nothing)
  | .popUint16 => (parserStackPopUint16 size context).map fun r => (r.1, .uint16 r.2)
  | .pop length => (parserStackPop size context length).map fun r => (r.1, .bytes r.2)
  | .changeLastUint8 newValue => (parserStackChangeLastUint8 context newValue).map (·, .nothing)

/-- The same operation on a list of bytes, the last one on top. -/
def Operation.onList (stack : List Byte) : Operation → List Byte × Output
  | .pushUint8 value => (stack ++ [value], .nothing)
  | .pushUint16 value => (stack ++ [(value >>> 8).setWidth 8, value.setWidth 8], .nothing)
  | .push data => (stack ++ data, .nothing)
  | .popUint8 => (stack.dropLast, .nothing)
  | .popUint16 =>
    (stack.dropLast.dropLast, .uint16 (stack.getD (stack.length - 2) 0#8 ++ stack.getD (stack.length - 1) 0#8 : BitVec 16))
  | .pop length => (stack.take (stack.length - length), .bytes (stack.drop (stack.length - length)))
  | .changeLastUint8 newValue => (stack.dropLast ++ [newValue], .nothing)

/-- Blocks are shorter than a page, and the stack does not get empty. -/
def Operation.Allowed (size : Nat) (stack : List Byte) : Operation → Prop
  | .pushUint8 _ | .pushUint16 _ => True
  | .push data => 0 < data.length ∧ data.length < size
  | .popUint8 => 1 < stack.length
  | .popUint16 => 2 < stack.length
  | .pop length => 0 < length ∧ length < size ∧ length < stack.length
  | .changeLastUint8 _ => stack ≠ []

theorem ensures_map {α : Type} {x : Except Failure α} {f : α → ParserContext × Output} {P : α → Prop}
    {Q : ParserContext × Output → Prop} (h : Ensures (OutOfMemory offered) x P) (hf : ∀ a, P a → Q (f a)) :
    Ensures (OutOfMemory offered) (x.map f) Q := by
  cases x with
  | error failure => exact h
  | ok a => exact hf a h

/-- An operation gives what it gives on the list, and leaves the bytes that it leaves in the list. -/
theorem step_spec (h : StackOk size context ids stack) (hsize : 1 < size) (hfresh : Fresh offered context) (op : Operation)
    (hallowed : op.Allowed size stack) :
    Ensures (OutOfMemory offered) (op.run size offered context) fun r =>
      r.2 = (op.onList stack).2 ∧ ∃ ids', StackOk size r.1 ids' (op.onList stack).1 := by
  cases op with
  | pushUint8 value =>
    exact ensures_map (pushUint8_spec h (by omega) hfresh value) fun context' hok => ⟨rfl, hok⟩
  | pushUint16 value =>
    exact ensures_map (pushUint16_spec h hsize hfresh value) fun context' hok => ⟨rfl, hok⟩
  | push data =>
    exact ensures_map (push_spec h hfresh hallowed.1 hallowed.2) fun context' hok => ⟨rfl, hok⟩
  | popUint8 =>
    obtain ⟨context', ids', hpop, hok⟩ := popUint8_spec h hallowed hsize
    rw [Operation.run, hpop, Operation.onList, List.dropLast_eq_take]
    exact ⟨rfl, ids', hok⟩
  | popUint16 =>
    have hlength : 2 < stack.length := hallowed
    obtain ⟨context', ids', high, low, hpop, hdrop, hok⟩ := popUint16_spec h hlength hsize
    have hhigh : stack.getD (stack.length - 2) 0#8 = high := by
      have hget : (stack.drop (stack.length - 2))[0]? = some high := by rw [hdrop]; rfl
      rw [List.getElem?_drop, Nat.add_zero] at hget
      rw [List.getD_eq_getElem?_getD, hget, Option.getD_some]
    have hlow : stack.getD (stack.length - 1) 0#8 = low := by
      have hget : (stack.drop (stack.length - 2))[1]? = some low := by rw [hdrop]; rfl
      rw [List.getElem?_drop, show stack.length - 2 + 1 = stack.length - 1 by omega] at hget
      rw [List.getD_eq_getElem?_getD, hget, Option.getD_some]
    rw [Operation.run, hpop, Operation.onList, hhigh, hlow, List.dropLast_eq_take, List.dropLast_eq_take,
      List.length_take, List.take_take]
    rw [show min (min (stack.length - 1) stack.length - 1) (stack.length - 1) = stack.length - 2 by omega]
    exact ⟨rfl, ids', hok⟩
  | pop length =>
    obtain ⟨context', ids', hpop, hok⟩ := pop_spec h hallowed.1 hallowed.2.1 hallowed.2.2
    rw [Operation.run, hpop]
    exact ⟨rfl, ids', hok⟩
  | changeLastUint8 newValue =>
    obtain ⟨context', hchange, hok⟩ := changeLastUint8_spec h hallowed newValue
    rw [Operation.run, hchange, Operation.onList, List.dropLast_eq_take]
    exact ⟨rfl, ids, hok⟩

/-! ## Runs -/

/-- The stacks that operations lead to, and the lists that the same operations lead to. A page that is offered is not in
use. -/
inductive Reached (size : Nat) : ParserContext → List Byte → Prop where
  | init (context : ParserContext) : Reached size (parserStackInit size context) []
  | step {context context' : ParserContext} {stack : List Byte} {output : Output} (op : Operation) (offered : Option Nat)
      (hreached : Reached size context stack) (hallowed : op.Allowed size stack) (hfresh : Fresh offered context)
      (hrun : op.run size offered context = .ok (context', output)) : Reached size context' (op.onList stack).1

theorem Reached.ok (hreached : Reached size context stack) (hsize : 1 < size) : ∃ ids, StackOk size context ids stack := by
  induction hreached with
  | init context => exact ⟨[], init_ok size context⟩
  | step op offered _ hallowed hfresh hrun ih =>
    obtain ⟨ids, hok⟩ := ih
    have hstep := step_spec hok hsize hfresh op hallowed
    rw [hrun] at hstep
    exact hstep.2

/-- A byte can be pushed as long as there is memory: some page is not in use. -/
theorem Reached.pushByte (hreached : Reached size context stack) (hsize : 1 < size) (value : Byte) :
    ∃ context', Reached size context' (stack ++ [value]) := by
  obtain ⟨ids, hok⟩ := hreached.ok hsize
  obtain ⟨page, hpage⟩ := Infinite.exists_notMem_finset context.live.toFinset
  have hfresh : Fresh (some page) context := by
    intro p hp hin
    cases hp
    exact hpage (List.mem_toFinset.mpr hin)
  have hstep := step_spec hok hsize hfresh (.pushUint8 value) trivial
  cases hrun : Operation.run size (some page) context (.pushUint8 value) with
  | error failure =>
    rw [hrun] at hstep
    cases hstep.2
  | ok r => exact ⟨r.1, .step (.pushUint8 value) (some page) hreached trivial hfresh hrun⟩

theorem pageSize_gt (pointer64 : Bool) : 1 < parserStackPageSize pointer64 := by
  cases pointer64 <;> decide

/-- The pages of the stack hold the bytes of the list, and the page in reserve is none of them. The next operation fails
only when it needs a page and there is none; it gives back what it gives back on the list. What an iterator reads and
writes are the bytes counted from the top. -/
theorem parser_stack_refines (pointer64 : Bool) (hreached : Reached (parserStackPageSize pointer64) context stack) :
    ∃ ids, Linked (parserStackPageSize pointer64) context.pages context.first context.lastPosition ids stack ∧
      (∀ p, context.freePage = some p → p ∉ ids) ∧
      (∀ b, stack.getLast? = some b → context.stackTopUint8 = b) ∧
      (∀ (op : Operation) (offered : Option Nat), op.Allowed (parserStackPageSize pointer64) stack → Fresh offered context →
        Ensures (OutOfMemory offered) (op.run (parserStackPageSize pointer64) offered context) fun r =>
          r.2 = (op.onList stack).2 ∧ Reached (parserStackPageSize pointer64) r.1 (op.onList stack).1) ∧
      ∀ k iterator, Skipped (parserStackPageSize pointer64) context stack.length k iterator →
        (∀ b, (stack.take (stack.length - k)).getLast? = some b →
          parserStackIteratorReadUint8 (parserStackPageSize pointer64) context iterator = .ok b) ∧
        ∀ length, 0 < length → length < parserStackPageSize pointer64 → k + length ≤ stack.length →
          (∃ iterator', parserStackIteratorSkip (parserStackPageSize pointer64) context iterator length = .ok iterator') ∧
          parserStackIteratorRead (parserStackPageSize pointer64) context iterator length =
            .ok ((stack.drop (stack.length - k - length)).take length) ∧
          ∀ data : List Byte, data.length = length → ∃ pages,
            parserStackIteratorWrite (parserStackPageSize pointer64) context iterator data =
              .ok { context with pages := pages } ∧
            Linked (parserStackPageSize pointer64) pages context.first context.lastPosition ids
              (stack.take (stack.length - k - length) ++ data ++ stack.drop (stack.length - k)) ∧
            ∀ p, p ∉ ids → pages p = context.pages p := by
  have hsize := pageSize_gt pointer64
  generalize parserStackPageSize pointer64 = size at *
  obtain ⟨ids, hok⟩ := hreached.ok hsize
  refine ⟨ids, hok.linked, hok.freeUnused, hok.top, ?_, ?_⟩
  · intro op offered hallowed hfresh
    have hstep := step_spec hok hsize hfresh op hallowed
    cases hrun : op.run size offered context with
    | error failure =>
      rw [hrun] at hstep
      exact hstep
    | ok r =>
      rw [hrun] at hstep
      exact ⟨hstep.1, .step op offered hreached hallowed hfresh hrun⟩
  · intro k iterator hskipped
    obtain ⟨hk, hat⟩ := hskipped.at hok.toHolds
    have hleft : (stack.take (stack.length - k)).length = stack.length - k := by
      rw [List.length_take]
      omega
    refine ⟨fun b hb => hat.readUint8 (by omega) hb, ?_⟩
    intro length hpos hlt hle
    refine ⟨?_, ?_, ?_⟩
    · obtain ⟨iterator', hskip, -⟩ := hat.skip hpos hlt (by omega)
      exact ⟨iterator', hskip⟩
    · rw [hat.read hpos hlt (by omega), hleft, List.drop_take, show stack.length - k - (stack.length - k - length) =
        length by omega]
    · intro data hdata
      obtain ⟨pages, hwrite, hat', hothers⟩ := hat.write (by omega) (by omega) (show data.length ≤ _ by omega)
      refine ⟨pages, hwrite, ?_, hothers⟩
      have hlinked := hat'.linked
      rw [hleft, hdata, List.take_take, Nat.min_eq_left (by omega)] at hlinked
      exact hlinked

/-- A stack with one byte, in page 0. -/
def oneByte : ParserContext where
  pages := Function.update (fun _ => ⟨none, fun _ => 0#8⟩) 0 ⟨none, store (fun _ => 0#8) 0 [7#8]⟩
  live := [0]
  first := some 0
  lastPosition := 1
  freePage := none
  stackTopUint8 := 7#8

theorem oneByte_reached : Reached (parserStackPageSize true) oneByte [7#8] := by
  have hpush : Operation.run (parserStackPageSize true) (some 0)
      (parserStackInit (parserStackPageSize true) ⟨fun _ => ⟨none, fun _ => 0#8⟩, [], none, 0, none, 0#8⟩)
      (.pushUint8 7#8) = .ok (oneByte, .nothing) := by
    show Except.ok _ = Except.ok _
    simp [oneByte, ParserContext.writeBytes, ParserContext.linkPage, parserStackInit]
  exact .step (.pushUint8 7#8) (some 0) (.init _) trivial (fun p _ hp => by cases hp) hpush

/-- With a second one on top. -/
theorem parser_stack_refines_oneByte :
    ∃ ids, Linked (parserStackPageSize true) oneByte.pages oneByte.first oneByte.lastPosition ids [7#8] ∧
      Ensures (OutOfMemory none) (Operation.run (parserStackPageSize true) none oneByte (.pushUint8 8#8)) fun r =>
        r.2 = .nothing ∧ Reached (parserStackPageSize true) r.1 [7#8, 8#8] := by
  obtain ⟨ids, hlinked, -, -, hstep, -⟩ := parser_stack_refines true oneByte_reached
  exact ⟨ids, hlinked, hstep (.pushUint8 8#8) none trivial fun p hp => by cases hp⟩

end ParserStack
end JJS
