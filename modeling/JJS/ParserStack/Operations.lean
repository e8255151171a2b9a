import JJS.ParserStack.Basic

/-!
# JJS.ParserStack.Operations

What the operations do to the bytes of the stack. `StackOk` says which pages the stack has and which bytes are in them,
that the page in reserve is another one, and that `stack_top_uint8` is the last byte. Each operation keeps it, with the
bytes that a list has after the same operation; none fails for another reason than the lack of a page.
-/

namespace JJS
namespace ParserStack

open Paged (Page store Linked)
open Outcome (Ensures)

/-! ## The invariant -/

/-- The pages of the stack hold the bytes; these pages and the one in reserve are in use. -/
structure Holds (size : Nat) (context : ParserContext) (ids : List Nat) (stack : List Byte) : Prop where
  linked : Linked size context.pages context.first context.lastPosition ids stack
  nodup : ids.Nodup
  freeUnused : ∀ p, context.freePage = some p → p ∉ ids
  live : ∀ p ∈ ids, p ∈ context.live
  freeLive : ∀ p, context.freePage = some p → p ∈ context.live

structure StackOk (size : Nat) (context : ParserContext) (ids : List Nat) (stack : List Byte) : Prop
    extends Holds size context ids stack where
  top : ∀ b, stack.getLast? = some b → context.stackTopUint8 = b

/-- There was no page to be had. -/
def OutOfMemory (offered : Option Nat) (failure : Failure) : Prop := failure = .outOfMemory ∧ offered = none

/-- An offered page is not in use. -/
def Fresh (offered : Option Nat) (context : ParserContext) : Prop := ∀ p, offered = some p → p ∉ context.live

variable {size : Nat} {context : ParserContext} {ids : List Nat} {stack : List Byte} {offered : Option Nat} {p : Nat}

theorem init_ok (size : Nat) (context : ParserContext) : StackOk size (parserStackInit size context) [] [] where
  linked := .nil
  nodup := List.nodup_nil
  freeUnused p h := by cases h
  live p h := by cases h
  freeLive p h := by cases h
  top b h := by cases h

/-- `stack_top_uint8` is of no concern to the pages. -/
theorem Holds.withTop (h : Holds size context ids stack) {top : Byte} (htop : stack.getLast? = some top) :
    StackOk size { context with stackTopUint8 := top } ids stack where
  linked := h.linked
  nodup := h.nodup
  freeUnused := h.freeUnused
  live := h.live
  freeLive := h.freeLive
  top b hb := by
    rw [htop] at hb
    exact Option.some.inj hb

/-- The stack has a first page when it is not empty. -/
theorem Holds.first (h : Holds size context ids stack) (hne : stack ≠ []) : ∃ p, context.first = some p := by
  cases hfirst : context.first with
  | some p => exact ⟨p, rfl⟩
  | none =>
    have hlinked := h.linked
    rw [hfirst] at hlinked
    cases hlinked with
    | nil => exact absurd rfl hne

/-- Or when there is room behind the last byte. -/
theorem Holds.first_of_room (h : Holds size context ids stack) (hroom : context.lastPosition < size) :
    ∃ p, context.first = some p := by
  cases hfirst : context.first with
  | some p => exact ⟨p, rfl⟩
  | none =>
    have hlinked := h.linked
    rw [hfirst] at hlinked
    generalize context.lastPosition = position at hlinked hroom
    cases hlinked with
    | nil => omega

theorem Holds.last (h : Holds size context ids stack) (hfirst : context.first = some p) :
    stack.getLast? = some (context.lastByte p) := by
  have hlinked := h.linked
  rw [hfirst] at hlinked
  exact hlinked.last

theorem StackOk.topPage (h : StackOk size context ids stack) (hfirst : context.first = some p) :
    context.topPage = .ok p := by
  rw [ParserContext.topPage, hfirst]
  exact if_pos (h.top _ (h.last hfirst))

theorem StackOk.checked (h : StackOk size context ids stack) :
    (context.first.all fun page => context.stackTopUint8 = context.lastByte page) = true := by
  cases hfirst : context.first with
  | none => rfl
  | some p => exact decide_eq_true (h.top _ (h.last hfirst))

/-! ## Pushes -/

/-- Bytes are added in the first page. -/
theorem Holds.append (h : Holds size context ids stack) (hfirst : context.first = some p) {data : List Byte}
    (hroom : context.lastPosition + data.length ≤ size) :
    Holds size { context.writeBytes p context.lastPosition data with lastPosition := context.lastPosition + data.length }
      ids (stack ++ data) where
  linked := by
    have hlinked := h.linked
    rw [hfirst] at hlinked
    show Linked size _ context.first _ ids (stack ++ data)
    rw [hfirst]
    exact hlinked.append h.nodup hroom
  nodup := h.nodup
  freeUnused := h.freeUnused
  live := h.live
  freeLive := h.freeLive

/-- A page that is taken is none of the stack. -/
theorem Holds.takePage (h : Holds size { context with lastPosition := size } ids stack) (hfresh : Fresh offered context) :
    Ensures (OutOfMemory offered) (context.takePage offered) fun r =>
      ∃ live, r.2 = { context with freePage := none, live := live } ∧ r.1 ∉ ids ∧ r.1 ∈ live ∧ context.live ⊆ live := by
  have hunused := h.freeUnused
  have hfreeLive := h.freeLive
  rw [ParserContext.takePage.eq_def]
  cases hfree : context.freePage with
  | some page => exact ⟨context.live, rfl, hunused page hfree, hfreeLive page hfree, List.Subset.refl _⟩
  | none =>
    cases hoffered : offered with
    | none => exact ⟨rfl, rfl⟩
    | some page =>
      refine ⟨page :: context.live, rfl, ?_, List.mem_cons_self, List.subset_cons_self page context.live⟩
      exact fun hin => hfresh page hoffered (h.live page hin)

/-- Bytes are added in a new page. -/
theorem Holds.pushPage (h : Holds size { context with lastPosition := size } ids stack) {page : Nat} {live : List Nat}
    (hnew : page ∉ ids) (hin : page ∈ live) (hlive : context.live ⊆ live) {data : List Byte} (hpos : 0 < data.length)
    (hroom : data.length ≤ size) (lastPosition : Nat) :
    Holds size { ParserContext.writeBytes { ParserContext.linkPage { context with freePage := none, live := live } page with
      lastPosition := lastPosition } page 0 data with lastPosition := data.length } (page :: ids) (stack ++ data) where
  linked := by
    have hpages : (ParserContext.writeBytes { ParserContext.linkPage { context with freePage := none, live := live } page with
        lastPosition := lastPosition } page 0 data).pages =
        Function.update context.pages page ⟨context.first, store (context.pages page).cells 0 data⟩ := by
      simp only [ParserContext.writeBytes, ParserContext.linkPage, Function.update_idem, Function.update_self]
    dsimp only
    rw [hpages]
    exact h.linked.push hnew hpos hroom
  nodup := List.nodup_cons.mpr ⟨hnew, h.nodup⟩
  freeUnused p hp := by cases hp
  live p hp := by
    cases List.mem_cons.mp hp with
    | inl heq =>
      rw [heq]
      exact hin
    | inr hold => exact hlive (h.live p hold)
  freeLive p hp := by cases hp

theorem Holds.full (h : Holds size context ids stack) (hfull : context.lastPosition = size) :
    Holds size { context with lastPosition := size } ids stack := by
  rw [← hfull] at h ⊢
  exact h

/-- One byte is pushed in the first page. -/
theorem pushUint8_room (h : StackOk size context ids stack) (hroom : context.lastPosition < size) (value : Byte) :
    ∃ context', parserStackPushUint8 size offered context value = .ok context' ∧
      StackOk size context' ids (stack ++ [value]) ∧ context'.lastPosition = context.lastPosition + 1 ∧
      context'.live = context.live := by
  obtain ⟨p, hfirst⟩ := h.first_of_room hroom
  refine ⟨{ context.writeBytes p context.lastPosition [value] with
    lastPosition := context.lastPosition + 1
    stackTopUint8 := value }, ?_, ?_, rfl, rfl⟩
  · rw [parserStackPushUint8, if_pos h.checked, if_neg (Nat.not_le_of_lt hroom)]
    simp only [pure_bind, hfirst, deref]
    rfl
  · have hadded := @Holds.append size context ids stack p h.toHolds hfirst [value] hroom
    exact hadded.withTop List.getLast?_concat

/-- Or in a new one. -/
theorem pushUint8_full (h : StackOk size context ids stack) (hfull : context.lastPosition = size) (hsize : 0 < size)
    (hfresh : Fresh offered context) (value : Byte) :
    Ensures (OutOfMemory offered) (parserStackPushUint8 size offered context value) fun context' =>
      context'.lastPosition = 1 ∧ ∃ ids', StackOk size context' ids' (stack ++ [value]) := by
  rw [parserStackPushUint8, if_pos h.checked, if_pos (Nat.le_of_eq hfull.symm)]
  refine Ensures.bind ((h.full hfull).takePage hfresh) ?_
  intro r hr
  obtain ⟨page, context'⟩ := r
  obtain ⟨live, hcontext, hnew, hin, hlive⟩ := hr
  dsimp only at hcontext
  rw [hcontext]
  refine ⟨rfl, page :: ids, ?_⟩
  have hadded := @Holds.pushPage size context ids stack (h.full hfull) page live hnew hin hlive [value] Nat.one_pos hsize 0
  exact hadded.withTop List.getLast?_concat

theorem pushUint8_spec (h : StackOk size context ids stack) (hsize : 0 < size) (hfresh : Fresh offered context)
    (value : Byte) :
    Ensures (OutOfMemory offered) (parserStackPushUint8 size offered context value) fun context' =>
      ∃ ids', StackOk size context' ids' (stack ++ [value]) := by
  have hle := h.linked.position_le
  by_cases hroom : context.lastPosition < size
  · obtain ⟨context', hpush, hok, -⟩ := @pushUint8_room size context ids stack offered h hroom value
    rw [hpush]
    exact ⟨ids, hok⟩
  · exact (pushUint8_full h (by omega) hsize hfresh value).mono fun _ hok => hok.2

/-- Two bytes are pushed, the high one first. A new page is needed for one of them at most. -/
theorem pushUint16_spec (h : StackOk size context ids stack) (hsize : 1 < size) (hfresh : Fresh offered context)
    (value : BitVec 16) :
    Ensures (OutOfMemory offered) (parserStackPushUint16 size offered context value) fun context' =>
      ∃ ids', StackOk size context' ids' (stack ++ [(value >>> 8).setWidth 8, value.setWidth 8]) := by
  have hle := h.linked.position_le
  have hsplit : stack ++ [(value >>> 8).setWidth 8, value.setWidth 8] =
      stack ++ [(value >>> 8).setWidth 8] ++ [value.setWidth 8] := by
    rw [List.append_assoc]
    rfl
  rw [parserStackPushUint16, hsplit]
  dsimp only
  by_cases hroom : context.lastPosition + 2 ≤ size
  · obtain ⟨p, hfirst⟩ := h.first_of_room (by omega)
    rw [if_pos hroom, h.topPage hfirst]
    have hhigh := @Holds.append size context ids stack p h.toHolds hfirst [(value >>> 8).setWidth 8]
      (show context.lastPosition + 1 ≤ size by omega)
    have hlow := @Holds.append size _ ids _ p hhigh hfirst [value.setWidth 8]
      (show context.lastPosition + 1 + 1 ≤ size by omega)
    exact ⟨ids, hlow.withTop List.getLast?_concat⟩
  · rw [if_neg hroom]
    by_cases hfull : context.lastPosition = size
    · refine Ensures.bind (pushUint8_full h hfull (by omega) hfresh _) ?_
      intro context' hcontext
      obtain ⟨hposition, ids', hok⟩ := hcontext
      obtain ⟨context'', hpush, hok', -⟩ := @pushUint8_room size context' ids' _ offered hok (by omega) (value.setWidth 8)
      rw [hpush]
      exact ⟨ids', hok'⟩
    · obtain ⟨context', hpush, hok, hposition, hlive⟩ :=
        @pushUint8_room size context ids stack offered h (by omega) ((value >>> 8).setWidth 8)
      rw [hpush]
      refine pushUint8_spec hok (by omega) ?_ _
      rw [Fresh, hlive]
      exact hfresh

/-- What does not fit in the first page comes into a new one. -/
theorem pushFragment_spec (h : Holds size { context with lastPosition := size } ids stack) (hfresh : Fresh offered context)
    {data : List Byte} (hpos : 0 < data.length) (hroom : data.length ≤ size)
    (htop : data.getLast? = some context.stackTopUint8) :
    Ensures (OutOfMemory offered) (pushFragment offered context data) fun context' =>
      ∃ ids', StackOk size context' ids' (stack ++ data) := by
  rw [pushFragment]
  refine Ensures.bind (h.takePage hfresh) ?_
  intro r hr
  obtain ⟨page, context'⟩ := r
  obtain ⟨live, hcontext, hnew, hin, hlive⟩ := hr
  dsimp only at hcontext
  rw [hcontext]
  refine ⟨page :: ids, ?_⟩
  have hadded := h.pushPage hnew hin hlive hpos hroom context.lastPosition
  refine @Holds.withTop size _ (page :: ids) (stack ++ data) hadded context.stackTopUint8 ?_
  rw [List.getLast?_append, htop]
  rfl

theorem push_spec (h : StackOk size context ids stack) (hfresh : Fresh offered context) {data : List Byte}
    (hpos : 0 < data.length) (hlength : data.length < size) :
    Ensures (OutOfMemory offered) (parserStackPush size offered context data) fun context' =>
      ∃ ids', StackOk size context' ids' (stack ++ data) := by
  have hle := h.linked.position_le
  have hlast : data.getLast? = some (data.getD (data.length - 1) 0#8) := by
    rw [List.getLast?_eq_getElem?, List.getD_eq_getElem?_getD, List.getElem?_eq_getElem (by omega), Option.getD_some]
  have hnew : Holds size { context with stackTopUint8 := data.getD (data.length - 1) 0#8 } ids stack :=
    ⟨h.linked, h.nodup, h.freeUnused, h.live, h.freeLive⟩
  rw [parserStackPush, if_pos ⟨hlength, hpos⟩]
  dsimp only
  by_cases hroom : 0 < size - context.lastPosition
  · obtain ⟨p, hfirst⟩ := h.first_of_room (by omega)
    rw [if_pos hroom, hfirst]
    by_cases hfits : context.lastPosition + data.length ≤ size
    · -- all of it fits
      have hall : (if data.length < size - context.lastPosition then data.length else size - context.lastPosition) =
          data.length := by
        split
        · rfl
        · omega
      have hadded := hnew.append hfirst hfits
      have hok := @Holds.withTop size _ ids (stack ++ data) hadded (data.getD (data.length - 1) 0#8) (by
        rw [List.getLast?_append, hlast]
        rfl)
      simp only [deref, hall, bind, Except.bind, if_pos, List.take_length]
      rw [← hfirst]
      exact ⟨ids, hok⟩
    · have hpart : (if data.length < size - context.lastPosition then data.length else size - context.lastPosition) =
          size - context.lastPosition := if_neg (by omega)
      have htake : (data.take (size - context.lastPosition)).length = size - context.lastPosition := by
        rw [List.length_take]
        omega
      have hadded := @Holds.append size _ ids stack p hnew hfirst (data.take (size - context.lastPosition)) (by
        rw [htake]
        dsimp only
        omega)
      rw [htake] at hadded
      dsimp only at hadded
      rw [Nat.add_sub_cancel' hle] at hadded
      simp only [deref, hpart]
      rw [← hfirst]
      have hne : ¬size - context.lastPosition = data.length := by omega
      rw [← List.take_append_drop (size - context.lastPosition) data, ← List.append_assoc]
      simp only [bind, Except.bind, if_neg hne, List.take_append_drop]
      refine pushFragment_spec hadded hfresh ?_ ?_ ?_
      · rw [List.length_drop]
        omega
      · rw [List.length_drop]
        omega
      · rw [List.getLast?_drop, if_neg (by omega)]
        exact hlast
  · rw [if_neg hroom]
    exact pushFragment_spec (hnew.full (by dsimp only; omega)) hfresh hpos (Nat.le_of_lt hlength) hlast

/-! ## Pops -/

theorem keepPage_eq (context : ParserContext) (page : Nat) :
    context.keepPage page = { context with
      freePage := some (context.freePage.getD page)
      live := if context.freePage = none then context.live else context.live.erase page } := by
  rw [ParserContext.keepPage.eq_def]
  cases hfree : context.freePage with
  | none => rfl
  | some free =>
    dsimp only [Option.getD_some]
    rw [if_neg (fun h => by cases h)]

/-- Bytes are taken away in the first page. -/
theorem Holds.popWithin (h : Holds size context ids stack) (hfirst : context.first = some p) {length : Nat}
    (hlength : length < context.lastPosition) :
    Holds size { context with lastPosition := context.lastPosition - length } ids (stack.take (stack.length - length)) ∧
      stack.drop (stack.length - length) = Paged.segment (context.pages p).cells (context.lastPosition - length) length := by
  have hlinked := h.linked
  rw [hfirst] at hlinked
  obtain ⟨-, hwithin, hdrop⟩ := hlinked.within hlength
  rw [← hfirst] at hwithin
  exact ⟨⟨hwithin, h.nodup, h.freeUnused, h.live, h.freeLive⟩, hdrop⟩

/-- Or all bytes of the first page, and some of the next. -/
theorem Holds.popAcross (h : Holds size context ids stack) {length : Nat} (hge : context.lastPosition ≤ length)
    (hlength : length < stack.length) (hsize : length < size) :
    ∃ p q rest, context.first = some p ∧ (context.pages p).next = some q ∧
      Holds size { context.keepPage p with
        first := some q
        lastPosition := size - (length - context.lastPosition) } rest (stack.take (stack.length - length)) ∧
      stack.drop (stack.length - length) =
        Paged.segment (context.pages q).cells (size - (length - context.lastPosition)) (length - context.lastPosition) ++
          Paged.segment (context.pages p).cells 0 context.lastPosition := by
  obtain ⟨p, rest, hfirst, hids, hbelow, hdrop⟩ := h.linked.across hge (Nat.le_of_lt hlength) hsize
  obtain ⟨q, hq⟩ : ∃ q, (context.pages p).next = some q := by
    cases hnext : (context.pages p).next with
    | some q => exact ⟨q, rfl⟩
    | none =>
      rw [hnext] at hbelow
      have hnil := (hbelow.empty rfl).2
      rw [List.take_eq_nil_iff] at hnil
      cases hnil with
      | inl hzero => omega
      | inr hempty =>
        rw [hempty, List.length_nil] at hlength
        omega
  have hnodup := h.nodup
  rw [hids, List.nodup_cons] at hnodup
  rw [hq] at hbelow
  refine ⟨p, q, rest, hfirst, hq, ?_, ?_⟩
  · rw [keepPage_eq]
    refine ⟨hbelow, hnodup.2, ?_, ?_, ?_⟩
    · intro r hr hin
      cases hfree : context.freePage with
      | none =>
        rw [hfree] at hr
        cases hr
        exact hnodup.1 hin
      | some free =>
        rw [hfree] at hr
        cases hr
        have hnot := h.freeUnused free hfree
        rw [hids] at hnot
        exact hnot (List.mem_cons_of_mem p hin)
    · intro r hr
      have hin : r ∈ context.live := h.live r (by rw [hids]; exact List.mem_cons_of_mem p hr)
      dsimp only
      split
      · exact hin
      · refine (List.mem_erase_of_ne ?_).mpr hin
        intro heq
        rw [heq] at hr
        exact hnodup.1 hr
    · intro r hr
      dsimp only at hr ⊢
      cases hfree : context.freePage with
      | none =>
        rw [hfree] at hr
        cases hr
        rw [if_pos rfl]
        exact h.live p (by rw [hids]; exact List.mem_cons_self)
      | some free =>
        rw [hfree] at hr
        cases hr
        rw [if_neg (fun h => by cases h)]
        refine (List.mem_erase_of_ne ?_).mpr (h.freeLive free hfree)
        intro heq
        have hnot := h.freeUnused free hfree
        rw [hids, show free = p from heq] at hnot
        exact hnot List.mem_cons_self
  · cases hdrop with
    | inl hend =>
      rw [hend.1, hend.2, Nat.sub_self, Paged.segment_zero, List.nil_append]
    | inr hnext =>
      obtain ⟨q', hq', hcells⟩ := hnext
      rw [hq] at hq'
      cases hq'
      exact hcells

/-- The stack without its last byte. -/
theorem popUint8_spec (h : StackOk size context ids stack) (hlength : 1 < stack.length) (hsize : 1 < size) :
    ∃ context' ids', parserStackPopUint8 size context = .ok context' ∧
      StackOk size context' ids' (stack.take (stack.length - 1)) := by
  by_cases hwithin : 1 < context.lastPosition
  · obtain ⟨p, hfirst⟩ := h.first (by intro hnil; rw [hnil, List.length_nil] at hlength; omega)
    obtain ⟨hpopped, -⟩ := h.popWithin hfirst hwithin
    refine ⟨_, ids, ?_, hpopped.withTop (hpopped.last hfirst)⟩
    rw [parserStackPopUint8, h.topPage hfirst]
    show (if context.lastPosition - 1 = 0 then _ else _) = _
    rw [if_neg (by omega)]
    rfl
  · have hpos := h.linked.position_pos (by omega)
    obtain ⟨p, q, rest, hfirst, hq, hpopped, -⟩ := h.popAcross (Nat.le_of_not_lt hwithin) hlength hsize
    have hone : context.lastPosition = 1 := by omega
    refine ⟨_, rest, ?_, hpopped.withTop (hpopped.last rfl)⟩
    rw [parserStackPopUint8, h.topPage hfirst]
    show (if context.lastPosition - 1 = 0 then _ else _) = _
    rw [if_pos (by omega), keepPage_eq, keepPage_eq]
    simp only [hq, hone, deref]
    rfl

theorem joined (high low : Byte) :
    (low.setWidth 32 ||| high.setWidth 32 <<< 8 : BitVec 32).setWidth 16 = (high ++ low : BitVec 16) := by
  refine BitVec.eq_of_getLsbD_eq fun i hi => ?_
  rw [BitVec.getLsbD_append, BitVec.getLsbD_setWidth, BitVec.getLsbD_or, BitVec.getLsbD_shiftLeft, BitVec.getLsbD_setWidth,
    BitVec.getLsbD_setWidth]
  by_cases hlow : i < 8
  · simp [hlow, hi, show i < 32 by omega]
  · have hzero : low.getLsbD i = false := BitVec.getLsbD_of_ge low i (by omega)
    simp [hlow, hi, hzero, show i < 32 by omega, show i - 8 < 32 by omega]

theorem drop_two {β : Type} {l : List β} {high low : β} (hlow : l.getLast? = some low)
    (hhigh : (l.take (l.length - 1)).getLast? = some high) : l.drop (l.length - 2) = [high, low] := by
  rw [← List.dropLast_eq_take] at hhigh
  obtain ⟨l', hl⟩ := List.getLast?_eq_some_iff.mp hlow
  rw [hl, List.dropLast_concat] at hhigh
  obtain ⟨l'', hl'⟩ := List.getLast?_eq_some_iff.mp hhigh
  rw [hl, hl', List.append_assoc, List.length_append]
  exact List.drop_left' rfl

/-- The stack without its last two bytes. -/
theorem popUint16_spec (h : StackOk size context ids stack) (hlength : 2 < stack.length) (hsize : 1 < size) :
    ∃ context' ids' high low, parserStackPopUint16 size context = .ok (context', high ++ low) ∧
      stack.drop (stack.length - 2) = [high, low] ∧ StackOk size context' ids' (stack.take (stack.length - 2)) := by
  rw [parserStackPopUint16]
  dsimp only
  by_cases hwithin : 3 ≤ context.lastPosition
  · obtain ⟨p, hfirst⟩ := h.first (by intro hnil; rw [hnil, List.length_nil] at hlength; omega)
    obtain ⟨hpopped, hdrop⟩ := h.popWithin hfirst (show 2 < context.lastPosition by omega)
    have hlow : context.stackTopUint8 = (context.pages p).cells (context.lastPosition - 2 + 1) := by
      rw [h.top _ (h.last hfirst), ParserContext.lastByte, show context.lastPosition - 2 + 1 = context.lastPosition - 1 by omega]
    rw [if_pos hwithin, h.topPage hfirst]
    refine ⟨_, ids, (context.pages p).cells (context.lastPosition - 2), context.stackTopUint8, ?_, ?_,
      hpopped.withTop (hpopped.last hfirst)⟩
    · show Except.ok (_, _) = Except.ok (_, _)
      rw [joined]
      rfl
    · rw [hdrop, hlow]
      rfl
  · obtain ⟨context', ids', hpop, hok⟩ := popUint8_spec h (by omega) hsize
    have hleft : (stack.take (stack.length - 1)).length = stack.length - 1 := by
      rw [List.length_take]
      omega
    obtain ⟨context'', ids'', hpop', hok'⟩ := popUint8_spec hok (by omega) hsize
    obtain ⟨p, hfirst⟩ := h.first (by intro hnil; rw [hnil, List.length_nil] at hlength; omega)
    obtain ⟨p', hfirst'⟩ := hok.first (by intro hnil; rw [hnil, List.length_nil] at hleft; omega)
    have hlow := h.last hfirst
    have hhigh := hok.last hfirst'
    rw [← h.top _ hlow] at hlow
    rw [← hok.top _ hhigh] at hhigh
    rw [if_neg hwithin, hpop]
    refine ⟨context'', ids'', context'.stackTopUint8, context.stackTopUint8, ?_, drop_two hlow hhigh, ?_⟩
    · show (parserStackPopUint8 size context' >>= fun context => Except.ok (context, _)) = _
      rw [hpop', joined]
      rfl
    · rw [hleft, List.take_take, show min (stack.length - 1 - 1) (stack.length - 1) = stack.length - 2 by omega] at hok'
      exact hok'

/-- The stack without its last bytes, which are copied in the order that they were pushed in. -/
theorem pop_spec (h : StackOk size context ids stack) {length : Nat} (hpos : 0 < length) (hsize : length < size)
    (hlength : length < stack.length) :
    ∃ context' ids', parserStackPop size context length = .ok (context', stack.drop (stack.length - length)) ∧
      StackOk size context' ids' (stack.take (stack.length - length)) := by
  rw [parserStackPop, if_pos ⟨hsize, hpos⟩]
  by_cases hwithin : length < context.lastPosition
  · obtain ⟨p, hfirst⟩ := h.first (by intro hnil; rw [hnil, List.length_nil] at hlength; omega)
    obtain ⟨hpopped, hdrop⟩ := h.popWithin hfirst hwithin
    refine ⟨_, ids, ?_, hpopped.withTop (hpopped.last hfirst)⟩
    rw [hfirst, hdrop]
    simp only [deref, bind, Except.bind, if_pos hwithin]
    rw [← hfirst]
    rfl
  · obtain ⟨p, q, rest, hfirst, hq, hpopped, hdrop⟩ := h.popAcross (Nat.le_of_not_lt hwithin) hlength hsize
    have hpositive : 0 < size - (length - context.lastPosition) := by omega
    refine ⟨_, rest, ?_, hpopped.withTop (hpopped.last rfl)⟩
    rw [hfirst, hdrop]
    simp only [deref, bind, Except.bind, if_neg hwithin, hq, if_pos hpositive, keepPage_eq]
    rfl

theorem changeLastUint8_spec (h : StackOk size context ids stack) (hne : stack ≠ []) (value : Byte) :
    ∃ context', parserStackChangeLastUint8 context value = .ok context' ∧
      StackOk size context' ids (stack.take (stack.length - 1) ++ [value]) := by
  obtain ⟨p, hfirst⟩ := h.first hne
  have hlinked := h.linked
  rw [hfirst] at hlinked
  have hpos : ([value] : List Byte).length ≤ context.lastPosition := by
    cases hlinked with
    | page hpos _ _ => exact hpos
  obtain ⟨-, hwritten⟩ := hlinked.overwrite h.nodup hpos
  rw [← hfirst] at hwritten
  have hholds : Holds size (context.writeBytes p (context.lastPosition - 1) [value]) ids
      (stack.take (stack.length - 1) ++ [value]) := ⟨hwritten, h.nodup, h.freeUnused, h.live, h.freeLive⟩
  refine ⟨_, ?_, hholds.withTop List.getLast?_concat⟩
  rw [parserStackChangeLastUint8, h.topPage hfirst]
  rfl

end ParserStack
end JJS
