import JJS.Snapshot.Generate

/-!
# JJS.Snapshot.Load

`snapshot_load_compiled_code`: the function at an offset of a snapshot and the functions in it. What is loaded, and
what was compiled, is a tree of functions with values for literals.
-/

namespace JJS
namespace Snapshot

/-! ## Trees of functions -/

/-- A literal of a function: a literal of the literal storage, or a direct value. -/
inductive Value
  | direct (w : Nat)
  | literal (l : Literal)
deriving DecidableEq

/-- A tree of functions. A function in a function is null when it is the function itself. The byte code is everything
between the literals and the names. -/
inductive Tree
  | regexp (flags : Nat) (source : List UInt8)
  | function (flags : Nat) (args : Args) (consts : List Value) (subs : List (Option Tree)) (byteCode : List Nat)
      (names : List Value)

/-- The value of a word of compiled code. -/
def valueOf (contents : Contents) (w : Nat) : Option Value :=
  if isTableLiteral w && w != bigintZero then (contents w).map Value.literal else some (.direct w)

/-- The tree of compiled code. A snapshot has no line info. -/
def treeOf (heap : CodeHeap) (contents : Contents) : Nat → Nat → Option Tree
  | 0, _ => none
  | depth + 1, p =>
    match heap p with
    | none => none
    | some (.regexp flags source) => some (.regexp flags source)
    | some (.function code) =>
      (code.consts.mapM (valueOf contents)).bind fun consts =>
        (code.subWords.mapM fun w => if w = p then some none else (treeOf heap contents depth w).map some).bind
          fun subs =>
            (code.values.mapM (valueOf contents)).bind fun names =>
              some (.function (clearLineInfo code.flags) code.args consts subs code.byteCode names)

/-! ## Loading -/

/-- The block at an offset of the snapshot. -/
def blockAt : List Block → Nat → Nat → Option Block
  | [], _, _ => none
  | b :: bs, base, offset => if offset = base then some b else blockAt bs (base + b.extent) offset

/-- The bytes from the literal table on, by the offset in the header. -/
def SnapshotFile.literals (s : SnapshotFile) : Option (List UInt8) :=
  if s.litTableOffset = s.codeStart + extents s.blocks then some s.table else none

/-- The options of loading: whether the code is copied, and `JJS_SOURCE_NAME`. -/
structure LoadOptions where
  copy : Bool
  sourceName : Bool

/-- What a loaded function has in memory: its literals, the words from where the interpreter reads the byte code, and
the words at its end. -/
structure LoadedWords where
  literals : List Nat
  byteCode : List Nat
  tail : List Nat

/-- The copy of a function. A long function is not copied as a whole: its byte code becomes `CBC_SET_BYTECODE_PTR` with
a pointer back into the snapshot, and only the literals and the words at the end are copied. -/
def copyCode (options : LoadOptions) (code : FunctionCode) : LoadedWords :=
  if options.copy ∨ code.headerSize + code.literalCount * 2 + 8 > code.size * 8 then
    ⟨code.words.take code.literalCount, code.behind, code.behind⟩
  else
    let extra := code.valueCount + (if hasTaggedLiterals code.flags then 1 else 0) + 1 +
      if options.sourceName then 1 else 0
    ⟨code.words.take code.literalCount, code.behind, code.words.drop (code.words.length - extra)⟩

/-- The value of a word of a snapshot. -/
def loadValue (table : List UInt8) (w : Nat) : Option Value :=
  if isSnapshotOffset w then (getLiteral table w).map Value.literal else some (.direct w)

/-- `snapshot_load_compiled_code`. -/
def loadCompiledCode (s : SnapshotFile) (table : List UInt8) (options : LoadOptions) : Nat → Nat → Option Tree
  | 0, _ => none
  | depth + 1, offset =>
    match blockAt s.blocks s.codeStart offset with
    | none => none
    | some (.regexp _ refs flags source) =>
      if refs ≤ source.length then some (.regexp flags (source.take refs)) else none
    | some (.function code) =>
      let loaded := copyCode options code
      ((loaded.literals.take code.constCount).mapM (loadValue table)).bind fun consts =>
        ((loaded.literals.drop code.constCount).mapM fun w =>
          if w = 0 then some none else (loadCompiledCode s table options depth (offset + w)).map some).bind fun subs =>
            ((loaded.tail.drop (loaded.tail.length - code.valueCount)).mapM (loadValue table)).bind fun names =>
              some (.function code.flags code.args consts subs
                (loaded.byteCode.take (loaded.byteCode.length - code.valueCount)) names)

/-- The function of a snapshot with a number. -/
def loadFunction (s : SnapshotFile) (options : LoadOptions) (depth index : Nat) : Option Tree :=
  s.funcOffsets[index]?.bind fun offset =>
    s.literals.bind fun table => loadCompiledCode s table options depth offset

end Snapshot
end JJS
