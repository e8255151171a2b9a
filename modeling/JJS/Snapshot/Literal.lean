import Mathlib.Data.Nat.Bitwise
import Mathlib.Data.List.Basic
import Mathlib.Data.List.TakeDrop
import Mathlib.Tactic.Common

/-!
# JJS.Snapshot.Literal

The literal table of a snapshot, from `ecma-literal-storage.c`. An `ecma_value_t` is a word with its type in the low
three bits; what a word of a literal stands for is given by a map of contents, which is the literal storage of the
engine. A literal is written with two bytes for the length of a string, and the word that refers to it holds its
offset above five bits of tags.
-/

namespace JJS
namespace Snapshot

/-! ## Words -/

/-- `ecma_is_value_string`: a pointer to a string, or a direct string. -/
def isString (w : Nat) : Bool := w % 4 == 1

/-- `ecma_is_value_float_number`. -/
def isFloat (w : Nat) : Bool := w % 8 == 2

/-- `ecma_is_value_bigint`. -/
def isBigint (w : Nat) : Bool := w % 8 == 6

/-- The type is `ECMA_TYPE_SNAPSHOT_OFFSET`. -/
def isSnapshotOffset (w : Nat) : Bool := w % 8 == 7

/-- `ECMA_BIGINT_ZERO`. -/
def bigintZero : Nat := 6

/-- `ECMA_VALUE_EMPTY`. -/
def valueEmpty : Nat := 8

/-- What a literal stands for: the bytes of a string or of a number, or the sign and size and the digits of a BigInt. -/
inductive Literal
  | string (bytes : List UInt8)
  | number (bytes : List UInt8)
  | bigint (signAndSize : Nat) (digits : List UInt8)
deriving DecidableEq

/-- What the words of the literals stand for. A word may also stand for nothing that can be read. -/
abbrev Contents := Nat → Option Literal

/-- The literals that need an entry in the table: what `jjs_snapshot_set_offsets` looks for. -/
def isTableLiteral (w : Nat) : Bool := isString w || isBigint w || isFloat w

/-- The size of the digits of a BigInt: `ECMA_BIGINT_GET_SIZE`. -/
def bigintSize (signAndSize : Nat) : Nat := signAndSize - signAndSize % 4

/-- What the literal storage knows of a literal. `plain` are the numbers that are no direct integers. -/
def Literal.WellFormed (plain : List UInt8 → Prop) : Literal → Prop
  | .string _ => True
  | .number bytes => bytes.length = 8 ∧ plain bytes
  | .bigint signAndSize digits =>
    signAndSize < 2 ^ 32 ∧ digits.length = bigintSize signAndSize ∧ 0 < digits.length

/-! ## Writing -/

/-- `JJS_ALIGNUP (n, JJS_SNAPSHOT_LITERAL_ALIGNMENT)`. -/
def alignLiteral (n : Nat) : Nat := (n + 1) / 2 * 2

def Literal.tableSize : Literal → Nat
  | .string bytes => alignLiteral (2 + bytes.length)
  | .number bytes => bytes.length
  | .bigint _ digits => alignLiteral (4 + digits.length)

/-- `JJS_SNAPSHOT_LITERAL_IS_NUMBER` and `JJS_SNAPSHOT_LITERAL_IS_BIGINT`. -/
def Literal.tag : Literal → Nat
  | .string _ => 0
  | .number _ => 8
  | .bigint _ _ => 16

def byteAt (n i : Nat) : UInt8 := UInt8.ofNat (n / 256 ^ i)

/-- The bytes of a literal at `offset`. A string of odd size is followed by a byte that the buffer had before. -/
def Literal.encode (old : Nat → UInt8) (offset : Nat) : Literal → List UInt8
  | .string bytes =>
    [byteAt bytes.length 0, byteAt bytes.length 1] ++ bytes ++
      (if bytes.length % 2 = 1 then [old (offset + 2 + bytes.length)] else [])
  | .number bytes => bytes
  | .bigint signAndSize digits =>
    [byteAt signAndSize 0, byteAt signAndSize 1, byteAt signAndSize 2, byteAt signAndSize 3] ++ digits

/-- `map_p->literal_offset`. -/
def offsetWord (offset : Nat) (l : Literal) : Nat := offset <<< 5 ||| 7 ||| l.tag

/-! ## Reading -/

def wordAt (bytes : List UInt8) : Nat :=
  bytes.foldr (fun b n => b.toNat + 256 * n) 0

/-- `ecma_snapshot_get_literal`, up to the literal storage. The null case is a read behind the table. -/
def getLiteral (table : List UInt8) (w : Nat) : Option Literal :=
  let p := table.drop (w >>> 5)
  if w.testBit 3 then
    if 8 ≤ p.length then some (.number (p.take 8)) else none
  else if w.testBit 4 then
    let signAndSize := wordAt (p.take 4)
    let size := bigintSize signAndSize
    if 4 + size ≤ p.length then some (.bigint signAndSize ((p.drop 4).take size)) else none
  else
    let length := wordAt (p.take 2)
    if 2 + length ≤ p.length then some (.string ((p.drop 2).take length)) else none

/-! ## A literal is read as it was written, up to the length of a string -/

/-- The literal with the length that two bytes can hold. -/
def Literal.narrow : Literal → Literal
  | .string bytes => .string (bytes.take (bytes.length % 2 ^ 16))
  | .number bytes => .number bytes
  | .bigint signAndSize digits => .bigint signAndSize digits

/-- The two bytes hold the length. -/
def Literal.Short : Literal → Prop
  | .string bytes => bytes.length < 2 ^ 16
  | _ => True

theorem narrow_eq_iff (l : Literal) : l.narrow = l ↔ l.Short := by
  cases l with
  | string bytes =>
    simp only [Literal.narrow, Literal.Short, Literal.string.injEq]
    constructor
    · intro h
      have hlen := congrArg List.length h
      rw [List.length_take] at hlen
      have := Nat.mod_lt bytes.length (show 0 < 2 ^ 16 by omega)
      omega
    · intro h
      rw [Nat.mod_eq_of_lt h, List.take_length]
  | number bytes => simp [Literal.narrow, Literal.Short]
  | bigint n digits => simp [Literal.narrow, Literal.Short]

variable {plain : List UInt8 → Prop} {l : Literal}

theorem encode_length (old : Nat → UInt8) (offset : Nat) (h : l.WellFormed plain) :
    (l.encode old offset).length = l.tableSize := by
  cases l with
  | string bytes =>
    simp only [Literal.encode, Literal.tableSize, alignLiteral]
    split <;> simp <;> omega
  | number bytes => rfl
  | bigint n digits =>
    have hlen : digits.length = bigintSize n := h.2.1
    simp only [Literal.encode, Literal.tableSize, alignLiteral, List.length_append, List.length_cons, List.length_nil]
    unfold bigintSize at hlen
    omega

theorem wordAt_two {n : Nat} : wordAt [byteAt n 0, byteAt n 1] = n % 2 ^ 16 := by
  simp only [wordAt, byteAt, List.foldr_cons, List.foldr_nil, UInt8.toNat_ofNat']
  omega

theorem wordAt_four {n : Nat} (h : n < 2 ^ 32) :
    wordAt [byteAt n 0, byteAt n 1, byteAt n 2, byteAt n 3] = n := by
  simp only [wordAt, byteAt, List.foldr_cons, List.foldr_nil, UInt8.toNat_ofNat']
  omega

/-- The offset is above the tags. -/
theorem offsetWord_eq (offset : Nat) (l : Literal) : offsetWord offset l = offset * 32 + (7 + l.tag) := by
  have hlow : 7 ||| l.tag = 7 + l.tag := by cases l <;> simp [Literal.tag]
  have htag : 7 + l.tag < 2 ^ 5 := by cases l <;> simp [Literal.tag]
  rw [offsetWord, Nat.or_assoc, hlow, Nat.shiftLeft_eq, Nat.mul_comm, ← Nat.two_pow_add_eq_or_of_lt htag]

theorem offsetWord_shift (offset : Nat) (l : Literal) : offsetWord offset l >>> 5 = offset := by
  have htag : 7 + l.tag < 32 := by cases l <;> simp [Literal.tag]
  rw [offsetWord_eq, Nat.shiftRight_eq_div_pow]
  omega

theorem offsetWord_isSnapshotOffset (offset : Nat) (l : Literal) : isSnapshotOffset (offsetWord offset l) = true := by
  have htag : l.tag % 8 = 0 := by cases l <;> simp [Literal.tag]
  rw [offsetWord_eq, isSnapshotOffset, beq_iff_eq]
  omega

theorem offsetWord_testBit (offset i : Nat) (hi : i < 5) (l : Literal) :
    (offsetWord offset l).testBit i = (7 + l.tag).testBit i := by
  have htag : 7 + l.tag < 2 ^ 5 := by cases l <;> simp [Literal.tag]
  rw [offsetWord_eq, Nat.mul_comm, show (32 : Nat) = 2 ^ 5 from rfl, Nat.two_pow_add_eq_or_of_lt htag, Nat.testBit_or,
    Nat.testBit_two_pow_mul]
  simp [hi]

theorem getLiteral_encode (old : Nat → UInt8) (a b : List UInt8) (h : l.WellFormed plain) :
    getLiteral (a ++ l.encode old a.length ++ b) (offsetWord a.length l) = some l.narrow := by
  have hdrop : (a ++ l.encode old a.length ++ b).drop (offsetWord a.length l >>> 5) = l.encode old a.length ++ b := by
    rw [offsetWord_shift, List.append_assoc, List.drop_left]
  have hlen := encode_length old a.length h
  unfold getLiteral
  rw [hdrop, offsetWord_testBit _ 3 (by omega), offsetWord_testBit _ 4 (by omega)]
  cases l with
  | number bytes =>
    have h8 : bytes.length = 8 := h.1
    have htag : (7 + 8).testBit 3 = true := by decide
    rw [Literal.tag, if_pos htag, Literal.encode, if_pos (by simp [h8]), List.take_left' h8]
    rfl
  | bigint n digits =>
    obtain ⟨hn, hsize, -⟩ := h
    have htag3 : ¬ (7 + 16).testBit 3 = true := by decide
    have htag4 : (7 + 16).testBit 4 = true := by decide
    rw [Literal.tag, if_neg htag3, if_pos htag4]
    simp only [Literal.encode, List.cons_append, List.nil_append, List.take_succ_cons, List.take_zero,
      List.drop_succ_cons, List.drop_zero]
    rw [wordAt_four hn, if_pos (by simp; omega), List.take_left' hsize]
    rfl
  | string bytes =>
    have htag3 : ¬ (7 + 0).testBit 3 = true := by decide
    have htag4 : ¬ (7 + 0).testBit 4 = true := by decide
    rw [Literal.tag, if_neg htag3, if_neg htag4]
    simp only [Literal.encode, List.cons_append, List.nil_append, List.take_succ_cons, List.take_zero,
      List.drop_succ_cons, List.drop_zero]
    have hle : bytes.length % 2 ^ 16 ≤ bytes.length := Nat.mod_le _ _
    rw [wordAt_two, if_pos (by simp; omega), List.append_assoc, List.take_append_of_le_length hle]
    rfl

end Snapshot
end JJS
