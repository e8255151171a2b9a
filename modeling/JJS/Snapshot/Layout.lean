import JJS.Lib.Traverse
import JJS.Snapshot.Load

/-!
# JJS.Snapshot.Layout

How the functions of a tree lie in the buffer. `AllNodes` says something of every function and regular expression of
a tree, and `Stored` relates a tree in the heap to its copy in the buffer, up to a translation of the literals.
-/

namespace JJS
namespace Snapshot

open Traverse

/-! ## The parts of a function -/

/-- The words of a function in their four parts. -/
structure Parts (code : FunctionCode) (consts subs byteCode values : List Nat) : Prop where
  words : code.words = consts ++ (subs ++ (byteCode ++ values))
  consts_length : consts.length = code.constCount
  subs_length : consts.length + subs.length = code.literalCount
  values_length : values.length = code.valueCount

section

variable {code : FunctionCode} {consts subs byteCode values : List Nat} (h : Parts code consts subs byteCode values)

include h

theorem Parts.consts_eq : code.consts = consts := by
  rw [FunctionCode.consts, h.words, List.take_left' h.consts_length]

theorem Parts.literals_eq : code.words.take code.literalCount = consts ++ subs := by
  rw [h.words, ← List.append_assoc, List.take_left']
  rw [List.length_append, h.subs_length]

theorem Parts.subWords_eq : code.subWords = subs := by
  rw [FunctionCode.subWords, h.literals_eq, List.drop_left' h.consts_length]

theorem Parts.behind_eq : code.behind = byteCode ++ values := by
  rw [FunctionCode.behind, h.words, ← List.append_assoc, List.drop_left']
  rw [List.length_append, h.subs_length]

theorem Parts.byteCode_eq : code.byteCode = byteCode := by
  rw [FunctionCode.byteCode, h.behind_eq, List.take_left']
  rw [List.length_append, h.values_length, Nat.add_sub_cancel]

theorem Parts.values_eq : code.values = values := by
  have hlen : ∀ l : List Nat, l.length = (l ++ values).length - code.valueCount := by
    intro l
    rw [List.length_append, h.values_length, Nat.add_sub_cancel]
  rw [FunctionCode.values, h.words]
  simp only [← List.append_assoc]
  exact List.drop_left' (hlen _)

end

/-- The ends of the groups of a function are in order, and its parts do not overlap. -/
def FunctionCode.Regular (code : FunctionCode) : Prop :=
  code.constCount ≤ code.literalCount ∧ code.literalCount + code.valueCount ≤ code.words.length

theorem FunctionCode.Regular.parts {code : FunctionCode} (h : code.Regular) :
    Parts code code.consts code.subWords code.byteCode code.values := by
  obtain ⟨h1, h2⟩ := h
  have hconsts : code.consts.length = code.constCount := by
    rw [FunctionCode.consts, List.length_take]
    omega
  have hsubs : code.consts.length + code.subWords.length = code.literalCount := by
    rw [hconsts, FunctionCode.subWords, List.length_drop, List.length_take]
    omega
  have hvalues : code.values.length = code.valueCount := by
    rw [FunctionCode.values, List.length_drop]
    omega
  refine ⟨?_, hconsts, hsubs, hvalues⟩
  have htail : code.byteCode ++ code.values = code.behind := by
    have hlen : code.behind.length = code.words.length - code.literalCount := List.length_drop
    have hdrop : code.values = code.behind.drop (code.behind.length - code.valueCount) := by
      rw [FunctionCode.values, FunctionCode.behind, List.drop_drop, List.length_drop]
      congr 1
      omega
    rw [FunctionCode.byteCode, hdrop, List.take_append_drop]
  have hhead : code.consts ++ code.subWords = code.words.take code.literalCount := by
    have htake : code.consts = (code.words.take code.literalCount).take code.constCount := by
      rw [FunctionCode.consts, List.take_take, Nat.min_eq_left h1]
    rw [FunctionCode.subWords, htake, List.take_append_drop]
  rw [htail, ← List.append_assoc, hhead, FunctionCode.behind, List.take_append_drop]

/-! ## Flags -/

theorem clearLineInfo_testBit {flags i : Nat} (h : i = 1 ∨ i = 3 ∨ i = 6) :
    (clearLineInfo flags).testBit i = flags.testBit i := by
  rw [clearLineInfo, Nat.testBit_and]
  cases h with
  | inl h1 => rw [h1]; exact Bool.and_true _
  | inr h =>
    cases h with
    | inl h3 => rw [h3]; exact Bool.and_true _
    | inr h6 => rw [h6]; exact Bool.and_true _

theorem functionType_clearLineInfo {flags : Nat} (h : flags < 2 ^ 16) :
    functionType (clearLineInfo flags) = functionType flags := by
  have hlt : flags >>> 12 < 2 ^ 4 := by
    rw [Nat.shiftRight_eq_div_pow]
    omega
  rw [functionType, functionType, clearLineInfo, Nat.shiftRight_and_distrib]
  show flags >>> 12 &&& (2 ^ 4 - 1) = flags >>> 12
  rw [Nat.and_two_pow_sub_one_eq_mod, Nat.mod_eq_of_lt hlt]

/-- Two codes with the same structure: what does not change when a function is copied. -/
structure SameShape (code code' : FunctionCode) : Prop where
  args : code'.args = code.args
  size : code'.size = code.size
  uint16 : hasUint16Arguments code'.flags = hasUint16Arguments code.flags
  mapped : hasMappedArguments code'.flags = hasMappedArguments code.flags
  type : functionType code'.flags = functionType code.flags

section

variable {code code' : FunctionCode} (h : SameShape code code')

include h

theorem SameShape.constCount : code'.constCount = code.constCount := by
  rw [FunctionCode.constCount, FunctionCode.constCount, h.args]

theorem SameShape.literalCount : code'.literalCount = code.literalCount := by
  rw [FunctionCode.literalCount, FunctionCode.literalCount, h.args]

theorem SameShape.headerSize : code'.headerSize = code.headerSize := by
  rw [FunctionCode.headerSize, FunctionCode.headerSize, h.uint16]

theorem SameShape.valueCount : code'.valueCount = code.valueCount := by
  rw [FunctionCode.valueCount, FunctionCode.valueCount, h.mapped, h.type, h.args]

/-- A copy with other words in its parts. -/
theorem SameShape.parts {consts subs byteCode values consts' subs' values' : List Nat}
    (hp : Parts code consts subs byteCode values) (hwords : code'.words = consts' ++ (subs' ++ (byteCode ++ values')))
    (hconsts : consts'.length = consts.length) (hsubs : subs'.length = subs.length)
    (hvalues : values'.length = values.length) : Parts code' consts' subs' byteCode values' where
  words := hwords
  consts_length := by rw [hconsts, hp.consts_length, h.constCount]
  subs_length := by rw [hconsts, hsubs, hp.subs_length, h.literalCount]
  values_length := by rw [hvalues, hp.values_length, h.valueCount]

end

/-! ## Trees -/

def Compiled.subWords : Compiled → List Nat
  | .regexp _ _ => []
  | .function code => code.subWords

/-- The functions from `p` on are a tree of at most this depth, and something holds of each of them. -/
def AllNodes (heap : CodeHeap) (N : Compiled → Prop) : Nat → Nat → Prop
  | 0, _ => False
  | depth + 1, p => ∃ c, heap p = some c ∧ N c ∧ ∀ w ∈ c.subWords, w ≠ p → AllNodes heap N depth w

theorem AllNodes.imp {heap : CodeHeap} {N M : Compiled → Prop} (hle : ∀ c, N c → M c) {depth p : Nat}
    (h : AllNodes heap N depth p) : AllNodes heap M depth p := by
  induction depth generalizing p with
  | zero => exact h
  | succ depth ih =>
    obtain ⟨c, hc, hn, hsubs⟩ := h
    exact ⟨c, hc, hle c hn, fun w hw hne => ih (hsubs w hw hne)⟩

theorem AllNodes.and {heap : CodeHeap} {N M : Compiled → Prop} {depth p : Nat} (h : AllNodes heap N depth p)
    (h' : AllNodes heap M depth p) : AllNodes heap (fun c => N c ∧ M c) depth p := by
  induction depth generalizing p with
  | zero => exact h
  | succ depth ih =>
    obtain ⟨c, hc, hn, hsubs⟩ := h
    obtain ⟨c', hc', hm, hsubs'⟩ := h'
    rw [hc] at hc'
    cases hc'
    exact ⟨c, hc, ⟨hn, hm⟩, fun w hw hne => ih (hsubs w hw hne) (hsubs' w hw hne)⟩

/-- What the parser guarantees of a function. -/
structure FunctionCode.WellFormed (contents : Contents) (code : FunctionCode) : Prop where
  isFunction : Snapshot.isFunction code.flags = true
  flags_lt : code.flags < 2 ^ 16
  size_eq : code.size * 8 = code.headerSize + 4 * code.words.length
  regular : code.Regular
  consts : ∀ w ∈ code.consts, isSnapshotOffset w = false ∧ (isSaved w = true → (contents w).isSome)
  values : ∀ w ∈ code.values, w = valueEmpty ∨ isString w = true ∧ (contents w).isSome

/-- What is compiled: a regular expression, or a function from the parser. -/
def Compiled.WellFormed (contents : Contents) : Compiled → Prop
  | .regexp flags _ => isFunction flags = false
  | .function code => code.WellFormed contents

/-! ## The buffer -/

theorem Block.extent_pos (b : Block) : 0 < b.extent := by
  cases b with
  | regexp size refs flags source =>
    simp only [Block.extent, alignUp]
    omega
  | function code =>
    simp only [Block.extent, FunctionCode.headerSize]
    split <;> omega

@[simp] theorem extents_nil : extents [] = 0 := rfl

@[simp] theorem extents_cons (b : Block) (bs : List Block) : extents (b :: bs) = b.extent + extents bs := by
  simp [extents]

@[simp] theorem extents_append (bs cs : List Block) : extents (bs ++ cs) = extents bs + extents cs := by
  simp [extents]

theorem blockAt_append {before : List Block} {b : Block} {behind : List Block} {base : Nat} :
    blockAt (before ++ b :: behind) base (base + extents before) = some b := by
  induction before generalizing base with
  | nil => exact if_pos rfl
  | cons c before ih =>
    have hpos := c.extent_pos
    have hne : base + extents (c :: before) ≠ base := by
      rw [extents_cons]
      omega
    have hstep : blockAt (before ++ b :: behind) (base + c.extent) (base + c.extent + extents before) = some b := ih
    rw [List.cons_append, blockAt, if_neg hne, extents_cons, ← Nat.add_assoc]
    exact hstep

/-! ## Trees in the buffer -/

/-- A function in the buffer, with its constants and values translated. -/
structure Translated (R V : Nat → Nat → Prop) (code code' : FunctionCode) : Prop where
  flags : code'.flags = clearLineInfo code.flags
  shape : SameShape code code'
  regular : code'.Regular
  consts : List.Forall₂ R code.consts code'.consts
  values : List.Forall₂ V code.values code'.values
  byteCode : code'.byteCode = code.byteCode

/-- The tree from `p` on lies in the buffer at `offset`. -/
def Stored (heap : CodeHeap) (R V : Nat → Nat → Prop) (blocks : List Block) (base : Nat) : Nat → Nat → Nat → Prop
  | 0, _, _ => False
  | depth + 1, p, offset =>
    match heap p with
    | none => False
    | some (.regexp flags source) =>
      ∃ size, blockAt blocks base offset = some (.regexp size (source.length % 2 ^ 16) flags source)
    | some (.function code) =>
      ∃ code', blockAt blocks base offset = some (.function code') ∧ Translated R V code code' ∧
        List.Forall₂ (fun w v => if w = p then v = 0 else 0 < v ∧ Stored heap R V blocks base depth w (offset + v))
          code.subWords code'.subWords

end Snapshot
end JJS
