import JJS.Lib.Utf8
import JJS.Lit.Utf8

/-!
# JJS.Regexp.Bytecode

The byte code of regular expressions (`re-bytecode.c`). A value is one byte, or a marker and four bytes; a character
has two bytes, or four in full unicode mode. The compiler appends to the byte code and inserts into it, and the matcher
reads it at a position.
-/

namespace JJS
namespace Regexp

open Utf8 Lit

/-- `ecma_regexp_flags_t`. -/
structure Flags where
  global : Bool := false
  ignoreCase : Bool := false
  multiline : Bool := false
  sticky : Bool := false
  unicode : Bool := false
  dotAll : Bool := false
  deriving DecidableEq

/-- `re_opcode_t`. -/
inductive Opcode where
  | eof
  | alternativeStart
  | alternativeNext
  | noAlternative
  | capturingGroupStart
  | nonCapturingGroupStart
  | greedyCapturingGroupEnd
  | greedyNonCapturingGroupEnd
  | lazyCapturingGroupEnd
  | lazyNonCapturingGroupEnd
  | greedyIterator
  | lazyIterator
  | iteratorEnd
  | backreference
  | assertLineStart
  | assertLineEnd
  | assertWordBoundary
  | assertNotWordBoundary
  | assertLookaheadPos
  | assertLookaheadNeg
  | assertEnd
  | classEscape
  | charClass
  | unicodePeriod
  | period
  | char
  | byte
  deriving DecidableEq

/-- The opcodes in the order of the enumeration. -/
def Opcode.all : List Opcode :=
  [eof, alternativeStart, alternativeNext, noAlternative, capturingGroupStart, nonCapturingGroupStart,
    greedyCapturingGroupEnd, greedyNonCapturingGroupEnd, lazyCapturingGroupEnd, lazyNonCapturingGroupEnd,
    greedyIterator, lazyIterator, iteratorEnd, backreference, assertLineStart, assertLineEnd, assertWordBoundary,
    assertNotWordBoundary, assertLookaheadPos, assertLookaheadNeg, assertEnd, classEscape, charClass, unicodePeriod,
    period, char, byte]

/-- `(uint8_t) opcode`. -/
def Opcode.toByte (op : Opcode) : Byte := BitVec.ofNat 8 (Opcode.all.idxOf op)

/-- `(re_opcode_t) byte`. What is no opcode falls under the last case of the matcher, which is `RE_OP_BYTE`. -/
def Opcode.ofByte (b : Byte) : Opcode := Opcode.all.getD b.toNat .byte

/-- `RE_VALUE_1BYTE_MAX`. -/
def value1ByteMax : BitVec 32 := 0xfe#32

/-- `RE_VALUE_4BYTE_MARKER`. -/
def value4ByteMarker : Byte := 0xff#8

/-- `RE_QMAX_OFFSET`. -/
def qmaxOffset : BitVec 32 := 1#32

/-- `re_encode_u16`. -/
def encodeU16 (value : BitVec 16) : List Byte := [(value >>> 8).setWidth 8, value.setWidth 8]

/-- `re_encode_u32`. -/
def encodeU32 (value : BitVec 32) : List Byte :=
  [(value >>> 24).setWidth 8, (value >>> 16).setWidth 8, (value >>> 8).setWidth 8, value.setWidth 8]

/-- `re_encode_value`. -/
def encodeValue (value : BitVec 32) : List Byte :=
  if value ≤ value1ByteMax then [value.setWidth 8] else value4ByteMarker :: encodeU32 value

/-- What `re_append_char` and `re_insert_char` write. -/
def encodeChar (unicode : Bool) (cp : CodePoint) : List Byte :=
  if unicode then encodeU32 cp else encodeU16 (cp.setWidth 16)

/-! ## The readers

The position of a reader is a distance from the start of the code; the null case is a read behind its end. -/

section

variable (code : List Byte) (bc : Nat)

/-- `re_get_byte`. -/
def getByte : Option (Byte × Nat) := do
  let b ← code[bc]?
  some (b, bc + 1)

/-- `re_get_opcode`. -/
def getOpcode : Option (Opcode × Nat) := do
  let (b, bc) ← getByte code bc
  some (Opcode.ofByte b, bc)

/-- `re_decode_u16`, and the position behind. -/
def decodeU16 : Option (BitVec 16 × Nat) := do
  let (b0, bc) ← getByte code bc
  let (b1, bc) ← getByte code bc
  some ((b0.setWidth 16 <<< 8) + b1.setWidth 16, bc)

/-- `re_decode_u32`, and the position behind. -/
def decodeU32 : Option (BitVec 32 × Nat) := do
  let (b0, bc) ← getByte code bc
  let (b1, bc) ← getByte code bc
  let (b2, bc) ← getByte code bc
  let (b3, bc) ← getByte code bc
  some ((b0.setWidth 32 <<< 24) + (b1.setWidth 32 <<< 16) + (b2.setWidth 32 <<< 8) + b3.setWidth 32, bc)

/-- `re_get_value`. -/
def getValue : Option (BitVec 32 × Nat) := do
  let (value, bc) ← getByte code bc
  if value.setWidth 32 ≤ value1ByteMax then some (value.setWidth 32, bc) else decodeU32 code bc

/-- `re_get_char`. -/
def getChar (unicode : Bool) : Option (CodePoint × Nat) :=
  if unicode then decodeU32 code bc
  else do
    let (cp, bc) ← decodeU16 code bc
    some (cp.setWidth 32, bc)

end

/-! ## What is at a position -/

/-- The bytes are in the code at a position. -/
def At (code : List Byte) (bc : Nat) (bytes : List Byte) : Prop := bytes <+: code.drop bc

section

variable {code : List Byte} {bc : Nat}

theorem At.nil : At code bc [] := List.nil_prefix

theorem at_cons_iff {b : Byte} {bytes : List Byte} :
    At code bc (b :: bytes) ↔ code[bc]? = some b ∧ At code (bc + 1) bytes := by
  rw [At, At]
  cases hdrop : code.drop bc with
  | nil =>
    have hlen := List.drop_eq_nil_iff.mp hdrop
    rw [List.getElem?_eq_none hlen]
    constructor
    · intro h
      exact absurd (List.prefix_nil.mp h) (List.cons_ne_nil b bytes)
    · intro h
      cases h.1
  | cons c rest =>
    have hlt : bc < code.length := by
      by_contra hge
      rw [List.drop_eq_nil_iff.mpr (by omega)] at hdrop
      cases hdrop
    rw [List.drop_eq_getElem_cons hlt] at hdrop
    cases hdrop
    rw [List.cons_prefix_cons, List.getElem?_eq_getElem hlt, Option.some.injEq]
    exact and_congr_left' eq_comm

theorem at_append_iff {bytes bytes' : List Byte} :
    At code bc (bytes ++ bytes') ↔ At code bc bytes ∧ At code (bc + bytes.length) bytes' := by
  induction bytes generalizing bc with
  | nil => exact ⟨fun h => ⟨At.nil, h⟩, fun h => h.2⟩
  | cons b bytes ih =>
    rw [List.cons_append, at_cons_iff, at_cons_iff, ih, List.length_cons, and_assoc,
      show bc + 1 + bytes.length = bc + (bytes.length + 1) by omega]

theorem getByte_at {b : Byte} {bytes : List Byte} (h : At code bc (b :: bytes)) :
    getByte code bc = some (b, bc + 1) := by
  rw [getByte, (at_cons_iff.mp h).1]
  rfl

theorem ofByte_toByte (op : Opcode) : Opcode.ofByte op.toByte = op := by
  cases op <;> decide

theorem getOpcode_at {op : Opcode} {bytes : List Byte} (h : At code bc (op.toByte :: bytes)) :
    getOpcode code bc = some (op, bc + 1) := by
  rw [getOpcode, getByte_at h]
  simp only [Option.bind_eq_bind, Option.bind_some]
  rw [ofByte_toByte]

theorem decodeU16_at {value : BitVec 16} (h : At code bc (encodeU16 value)) :
    decodeU16 code bc = some (value, bc + 2) := by
  have h1 := (at_cons_iff.mp h).2
  rw [decodeU16, getByte_at h]
  simp only [Option.bind_eq_bind, Option.bind_some]
  rw [getByte_at h1]
  simp only [Option.bind_some, Option.some.injEq, Prod.mk.injEq]
  refine ⟨?_, trivial⟩
  apply BitVec.eq_of_toNat_eq
  simp only [BitVec.toNat_add, BitVec.toNat_shiftLeft, BitVec.toNat_setWidth, BitVec.toNat_ushiftRight,
    Nat.shiftRight_eq_div_pow, Nat.shiftLeft_eq]
  have hlt := value.isLt
  omega

theorem decodeU32_at {value : BitVec 32} (h : At code bc (encodeU32 value)) :
    decodeU32 code bc = some (value, bc + 4) := by
  have h1 := (at_cons_iff.mp h).2
  have h2 := (at_cons_iff.mp h1).2
  have h3 := (at_cons_iff.mp h2).2
  rw [decodeU32, getByte_at h]
  simp only [Option.bind_eq_bind, Option.bind_some]
  rw [getByte_at h1]
  simp only [Option.bind_some]
  rw [getByte_at h2]
  simp only [Option.bind_some]
  rw [getByte_at h3]
  simp only [Option.bind_some, Option.some.injEq, Prod.mk.injEq]
  refine ⟨?_, trivial⟩
  apply BitVec.eq_of_toNat_eq
  simp only [BitVec.toNat_add, BitVec.toNat_shiftLeft, BitVec.toNat_setWidth, BitVec.toNat_ushiftRight,
    Nat.shiftRight_eq_div_pow, Nat.shiftLeft_eq]
  have hlt := value.isLt
  omega

/-- A value is read as it was written. -/
theorem getValue_at {value : BitVec 32} (h : At code bc (encodeValue value)) :
    getValue code bc = some (value, bc + (encodeValue value).length) := by
  rw [encodeValue] at h ⊢
  by_cases hsmall : value ≤ value1ByteMax
  · have hwidth : (value.setWidth 8).setWidth 32 = value := by
      apply BitVec.eq_of_toNat_eq
      rw [BitVec.toNat_setWidth, BitVec.toNat_setWidth]
      have hle : value.toNat ≤ 0xfe := hsmall
      omega
    rw [if_pos hsmall] at h ⊢
    rw [getValue, getByte_at h]
    simp only [Option.bind_eq_bind, Option.bind_some]
    rw [hwidth, if_pos hsmall]
    rfl
  · rw [if_neg hsmall] at h ⊢
    have hrest := (at_cons_iff.mp h).2
    rw [getValue, getByte_at h]
    simp only [Option.bind_eq_bind, Option.bind_some]
    rw [if_neg (by decide), decodeU32_at hrest]
    rfl

theorem length_encodeChar (unicode : Bool) (cp : CodePoint) :
    (encodeChar unicode cp).length = if unicode then 4 else 2 := by
  cases unicode <;> rfl

end

end Regexp
end JJS
