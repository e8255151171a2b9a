import JJS.Snapshot.Pool

/-!
# JJS.Snapshot.Generate

`jjs_generate_snapshot` without the static option: the byte code of a function and of the functions in it is copied
into the buffer, the literals are collected and written behind it, and the literals in the copies are replaced by
their offsets.

The code behind the structure of a function is a list of words: the constant literals, the pointers to the functions
and regular expressions in it, the byte code, and at the end the values that have to be stored (the names of the
arguments and of the function). The heap maps a pointer to what it points to.
-/

namespace JJS
namespace Snapshot

/-! ## Compiled code -/

/-- `cbc_uint8_arguments_t` and `cbc_uint16_arguments_t` without their headers. -/
structure Args where
  stackLimit : Nat
  argumentEnd : Nat
  registerEnd : Nat
  identEnd : Nat
  constLiteralEnd : Nat
  literalEnd : Nat
deriving DecidableEq

/-- The code of a function. The size is in units of eight bytes. -/
structure FunctionCode where
  size : Nat
  flags : Nat
  args : Args
  words : List Nat
deriving DecidableEq

inductive Compiled
  | regexp (flags : Nat) (source : List UInt8)
  | function (code : FunctionCode)
deriving DecidableEq

abbrev CodeHeap := Nat → Option Compiled

/-- `CBC_FUNCTION_GET_TYPE`. -/
def functionType (flags : Nat) : Nat := flags >>> 12

/-- `CBC_IS_FUNCTION`. -/
def isFunction (flags : Nat) : Bool := 1 <<< 12 ≤ flags

/-- `CBC_FUNCTION_CONSTRUCTOR`. -/
def constructorType : Nat := 2

/-- `CBC_CODE_FLAGS_UINT16_ARGUMENTS`. -/
def hasUint16Arguments (flags : Nat) : Bool := flags.testBit 1

/-- `CBC_CODE_FLAGS_MAPPED_ARGUMENTS_NEEDED`. -/
def hasMappedArguments (flags : Nat) : Bool := flags.testBit 3

/-- `CBC_CODE_FLAGS_HAS_TAGGED_LITERALS`. -/
def hasTaggedLiterals (flags : Nat) : Bool := flags.testBit 6

/-- `CBC_CODE_FLAGS_STATIC_FUNCTION`. -/
def isStatic (flags : Nat) : Bool := flags.testBit 8

/-- The flags without `CBC_CODE_FLAGS_USING_LINE_INFO`. -/
def clearLineInfo (flags : Nat) : Nat := flags &&& 0xff7f

namespace FunctionCode

variable (code : FunctionCode)

/-- The size of the structure in front of the literals. -/
def headerSize : Nat := if hasUint16Arguments code.flags then 24 else 16

def constCount : Nat := code.args.constLiteralEnd - code.args.registerEnd

def literalCount : Nat := code.args.literalEnd - code.args.registerEnd

/-- The number of values that `ecma_snapshot_resolve_serializable_values` finds at the end. -/
def valueCount : Nat :=
  (if hasMappedArguments code.flags then code.args.argumentEnd else 0) +
    if functionType code.flags ≠ constructorType then 1 else 0

def consts : List Nat := code.words.take code.constCount

/-- The pointers to the functions and regular expressions, in the buffer their offsets. -/
def subWords : List Nat := (code.words.take code.literalCount).drop code.constCount

/-- Everything behind the literals. -/
def behind : List Nat := code.words.drop code.literalCount

def byteCode : List Nat := code.behind.take (code.behind.length - code.valueCount)

def values : List Nat := code.words.drop (code.words.length - code.valueCount)

/-- The code with other words for its constants and its values. -/
def mapValues (f g : Nat → Option Nat) : Option FunctionCode :=
  (code.consts.mapM f).bind fun consts =>
    (code.values.mapM g).bind fun values =>
      some { code with words := consts ++ (code.subWords ++ (code.byteCode ++ values)) }

end FunctionCode

/-! ## The buffer -/

/-- What is copied into the buffer. -/
inductive Block
  | regexp (size refs flags : Nat) (source : List UInt8)
  | function (code : FunctionCode)
deriving DecidableEq

/-- `JJS_ALIGNUP (n, JMEM_ALIGNMENT)`. -/
def alignUp (n : Nat) : Nat := (n + 7) / 8 * 8

/-- The bytes that the block takes in the buffer. -/
def Block.extent : Block → Nat
  | .regexp _ _ _ source => alignUp (6 + source.length)
  | .function code => code.headerSize + 4 * code.words.length

/-- The size of the block in its header. -/
def Block.codeSize : Block → Nat
  | .regexp size _ _ _ => size * 8
  | .function code => code.size * 8

def extents (blocks : List Block) : Nat := (blocks.map Block.extent).sum

/-- `sizeof (jjs_snapshot_header_t)`. -/
def headerBytes : Nat := 24

/-- `JJS_SNAPSHOT_MAXIMUM_WRITE_OFFSET`. -/
def maximumWriteOffset : Nat := 2 ^ 31 - 1

/-- `snapshot_globals_t`. -/
structure Globals where
  writeOffset : Nat
  regexFound : Bool
  classFound : Bool
deriving DecidableEq

/-! ## Copying -/

/-- The loop over the functions in a function. The first list of the result are their offsets from `start`. -/
def addSubs (add : Nat → Globals → Except Failure (List Block × Globals)) (p start : Nat) :
    List Nat → Globals → Except Failure (List Nat × List Block × Globals)
  | [], g => .ok ([], [], g)
  | w :: ws, g =>
    if w = p then
      (addSubs add p start ws g).bind fun (offsets, blocks, g) => .ok (0 :: offsets, blocks, g)
    else
      (add w g).bind fun (children, g') =>
        (addSubs add p start ws g').bind fun (offsets, blocks, g'') =>
          .ok ((g.writeOffset - start) :: offsets, children ++ blocks, g'')

/-- `snapshot_add_compiled_code`. The first argument bounds the depth of the functions. -/
def addCompiledCode (heap : CodeHeap) (bufferSize : Nat) : Nat → Nat → Globals → Except Failure (List Block × Globals)
  | 0, _, _ => .error .stuck
  | depth + 1, p, g =>
    if g.writeOffset > maximumWriteOffset then .error (.error .maximumSnapshotSize)
    else
      match heap p with
      | none => .error .stuck
      | some (.regexp flags source) =>
        if hasTaggedLiterals flags then .error (.error .taggedTemplateLiterals)
        else if g.writeOffset + 6 > bufferSize then .error (.error .bufferTooSmall)
        else if g.writeOffset + 6 + source.length > bufferSize then .error (.error .bufferTooSmall)
        else
          let size := (source.length + 6 + 7) / 8 % 2 ^ 16
          .ok ([.regexp size (source.length % 2 ^ 16) flags source],
            { g with writeOffset := alignUp (g.writeOffset + 6 + source.length), regexFound := true })
      | some (.function code) =>
        if hasTaggedLiterals code.flags then .error (.error .taggedTemplateLiterals)
        else if g.writeOffset + code.size * 8 > bufferSize then .error (.error .bufferTooSmall)
        else
          let copied : Globals :=
            { g with
              writeOffset := g.writeOffset + code.size * 8
              classFound := g.classFound || functionType code.flags == constructorType }
          (addSubs (addCompiledCode heap bufferSize depth) p g.writeOffset code.subWords copied).bind
            fun (offsets, blocks, g') =>
              .ok (.function
                { code with
                  flags := clearLineInfo code.flags
                  words := code.consts ++ (offsets ++ code.behind) } :: blocks, g')

/-! ## Literals -/

/-- The loop over the functions in a function. -/
def addSubLiterals (add : Nat → List Nat → Option (List Nat)) (heap : CodeHeap) (p : Nat) :
    List Nat → List Nat → Option (List Nat)
  | [], pool => some pool
  | w :: ws, pool =>
    match heap w with
    | none => none
    | some (.regexp _ _) => addSubLiterals add heap p ws pool
    | some (.function _) =>
      if w = p then addSubLiterals add heap p ws pool
      else (add w pool).bind fun pool => addSubLiterals add heap p ws pool

/-- `ecma_save_literals_add_compiled_code`. For mapped arguments the code reads as many words as there are arguments,
also behind the literals. -/
def addLiterals (heap : CodeHeap) : Nat → Nat → List Nat → Option (List Nat)
  | 0, _, _ => none
  | depth + 1, p, pool =>
    match heap p with
    | some (.function code) =>
      let pool := if hasMappedArguments code.flags then appendValues pool (code.words.take code.args.argumentEnd) else pool
      let pool := appendValues pool code.consts
      (addSubLiterals (addLiterals heap depth) heap p code.subWords pool).bind fun pool =>
        some (appendValues pool code.values)
    | _ => none

/-- The word that `jjs_snapshot_set_offsets` puts in the place of a constant. -/
def setConst (map : List (Nat × Nat)) (w : Nat) : Option Nat := if isTableLiteral w then lookup map w else some w

/-- The same for a value at the end of the code. -/
def setValue (map : List (Nat × Nat)) (w : Nat) : Option Nat := if w = valueEmpty then some w else lookup map w

def setBlockOffsets (map : List (Nat × Nat)) (b : Block) : Option Block :=
  if b.codeSize = b.extent then
    match b with
    | .regexp size refs flags source => some (.regexp size refs flags source)
    | .function code => (code.mapValues (setConst map) (setValue map)).map Block.function
  else none

/-- `jjs_snapshot_set_offsets`. A block whose size in the header is not its size leads the code astray. -/
def setOffsets (map : List (Nat × Nat)) (blocks : List Block) : Option (List Block) :=
  blocks.mapM (setBlockOffsets map)

/-! ## Snapshots -/

/-- A snapshot: the fields of `jjs_snapshot_header_t` that are not constant, the code with its place, and the table. -/
structure SnapshotFile where
  regexFound : Bool
  classFound : Bool
  litTableOffset : Nat
  funcOffsets : List Nat
  codeStart : Nat
  blocks : List Block
  table : List UInt8

/-- `jjs_generate_snapshot`. The second component is the size that is reported. -/
def generateSnapshot (heap : CodeHeap) (contents : Contents) (old : Nat → UInt8) (depth p bufferSize : Nat) :
    Except Failure (SnapshotFile × Nat) :=
  (addCompiledCode heap bufferSize depth p ⟨headerBytes, false, false⟩).bind fun (blocks, g) =>
    (orStuck (addLiterals heap depth p [])).bind fun pool =>
      (saveLiterals contents old bufferSize g.writeOffset pool).bind fun (map, table) =>
        (orStuck (setOffsets map blocks)).bind fun blocks =>
          .ok (⟨g.regexFound, g.classFound, g.writeOffset, [headerBytes], headerBytes, blocks, table⟩,
            g.writeOffset + table.length)

end Snapshot
end JJS
