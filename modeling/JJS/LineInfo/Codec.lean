import Mathlib.Data.Nat.Basic
import Mathlib.Tactic.Common
import Mathlib.Algebra.GroupWithZero.Nat

/-!
# JJS.LineInfo.Codec

The number codes of the line info: vlq and small numbers (`js-parser-line-info-create.c` writes them,
`ecma-line-info.c` reads them), and the encoded differences of lines and columns.

Each reader takes back what its writer wrote, whatever follows, and the differences round trip modulo
`2 ^ 32`.
-/

namespace JJS
namespace LineInfo

abbrev Byte := BitVec 8

/-- `uint32_t`, for lines and columns. -/
abbrev Counter := BitVec 32

/-- A byte with the value `n`. -/
def byte (n : Nat) : Byte := BitVec.ofNat 8 n

theorem toNat_byte {n : Nat} (h : n < 256) : (byte n).toNat = n := by
  rw [byte, BitVec.toNat_ofNat]
  exact Nat.mod_eq_of_lt h

/-! ## Vlq -/

/-- The bytes before the last one: seven bits each, with `ECMA_LINE_INFO_VLQ_CONTINUE`. -/
def vlqGroups : Nat → Nat → List Byte
  | 0, _ => []
  | groups + 1, value =>
    if value = 0 then [] else vlqGroups groups (value / 128) ++ [byte (value % 128 + 128)]

/-- `parser_line_info_encode_vlq`. A number of 32 bits has at most five groups. -/
def parserLineInfoEncodeVlq (value : Nat) : List Byte :=
  if value ≤ 0x7f then [byte value] else vlqGroups 4 (value / 128) ++ [byte (value % 128)]

/-- The loop of `ecma_line_info_decode_vlq`: the number and the bytes after it; `none` when it reads
past the end. -/
def decodeVlqFrom : Nat → List Byte → Option (Nat × List Byte)
  | _, [] => none
  | value, b :: rest =>
    let value := (value * 128 + b.toNat % 128) % 2 ^ 32
    if b.toNat < 128 then some (value, rest) else decodeVlqFrom value rest

/-- `ecma_line_info_decode_vlq`. -/
def ecmaLineInfoDecodeVlq (src : List Byte) : Option (Nat × List Byte) := decodeVlqFrom 0 src

theorem encodeVlq_eq (value : Nat) :
    parserLineInfoEncodeVlq value = vlqGroups 4 (value / 128) ++ [byte (value % 128)] := by
  unfold parserLineInfoEncodeVlq
  split
  · rename_i h
    rw [Nat.div_eq_of_lt (by omega), Nat.mod_eq_of_lt (by omega)]
    rfl
  · rfl

theorem decodeVlqFrom_groups (rest : List Byte) (groups : Nat) :
    ∀ (value : Nat), value < 128 ^ groups → value < 2 ^ 32 →
      decodeVlqFrom 0 (vlqGroups groups value ++ rest) = decodeVlqFrom value rest := by
  induction groups generalizing rest with
  | zero =>
    intro value h _
    have h0 : value = 0 := by simpa using h
    rw [h0]
    rfl
  | succ groups ih =>
    intro value h h32
    rw [vlqGroups]
    split
    · rename_i h0; rw [h0]; rfl
    · have hlt : value / 128 < 128 ^ groups := by
        rw [Nat.div_lt_iff_lt_mul (by decide)]
        rwa [Nat.pow_succ] at h
      have hbyte : (byte (value % 128 + 128)).toNat = value % 128 + 128 := toNat_byte (by omega)
      have hmod : (value / 128 * 128 + (value % 128 + 128) % 128) % 2 ^ 32 = value := by
        rw [Nat.add_mod_right, Nat.mod_mod, Nat.div_add_mod', Nat.mod_eq_of_lt h32]
      rw [List.append_assoc, ih _ _ hlt (by omega), List.singleton_append, decodeVlqFrom]
      simp only [hbyte, hmod, show ¬ value % 128 + 128 < 128 by omega, if_false]

theorem decodeVlq_encodeVlq {value : Nat} (h : value < 2 ^ 32) (rest : List Byte) :
    ecmaLineInfoDecodeVlq (parserLineInfoEncodeVlq value ++ rest) = some (value, rest) := by
  have hbyte : (byte (value % 128)).toNat = value % 128 := toNat_byte (by omega)
  have hmod : (value / 128 * 128 + value % 128 % 128) % 2 ^ 32 = value := by
    rw [Nat.mod_mod, Nat.div_add_mod', Nat.mod_eq_of_lt h]
  rw [ecmaLineInfoDecodeVlq, encodeVlq_eq, List.append_assoc, decodeVlqFrom_groups _ _ _ (by omega) (by omega),
    List.singleton_append, decodeVlqFrom]
  simp only [hbyte, hmod, Nat.mod_lt value (show 0 < 128 by decide), if_true]

theorem length_vlqGroups (groups : Nat) : ∀ (value : Nat), (vlqGroups groups value).length ≤ groups := by
  induction groups with
  | zero => intro value; exact Nat.le_refl 0
  | succ groups ih =>
    intro value
    rw [vlqGroups]
    split
    · exact Nat.zero_le _
    · rw [List.length_append, List.length_singleton]
      exact Nat.succ_le_succ (ih _)

theorem length_encodeVlq (value : Nat) :
    1 ≤ (parserLineInfoEncodeVlq value).length ∧ (parserLineInfoEncodeVlq value).length ≤ 5 := by
  have h := length_vlqGroups 4 (value / 128)
  rw [encodeVlq_eq, List.length_append, List.length_singleton]
  omega

/-! ## Small numbers -/

/-- `ECMA_LINE_INFO_ENCODE_TWO_BYTE` and `ECMA_LINE_INFO_ENCODE_TWO_BYTE_MIN`. -/
def encodeTwoByteMin : Nat := 254

/-- `ECMA_LINE_INFO_ENCODE_VLQ_MIN`. -/
def encodeVlqMin : Nat := 254 + 255 + 1

/-- `parser_line_info_encode_small`. -/
def parserLineInfoEncodeSmall (value : Nat) : List Byte :=
  if value < encodeTwoByteMin then [byte value]
  else if value < encodeVlqMin then [byte 254, byte (value - encodeTwoByteMin)]
  else byte 255 :: parserLineInfoEncodeVlq (value - encodeVlqMin)

/-- `ecma_line_info_decode_small`. -/
def ecmaLineInfoDecodeSmall : List Byte → Option (Nat × List Byte)
  | [] => none
  | type :: rest =>
    if type.toNat < encodeTwoByteMin then some (type.toNat, rest)
    else if type.toNat = 254 then
      match rest with
      | [] => none
      | b :: rest => some (b.toNat + encodeTwoByteMin, rest)
    else
      match ecmaLineInfoDecodeVlq rest with
      | none => none
      | some (value, rest) => some ((value + encodeVlqMin) % 2 ^ 32, rest)

theorem decodeSmall_encodeSmall {value : Nat} (h : value < 2 ^ 32) (rest : List Byte) :
    ecmaLineInfoDecodeSmall (parserLineInfoEncodeSmall value ++ rest) = some (value, rest) := by
  unfold parserLineInfoEncodeSmall encodeTwoByteMin encodeVlqMin
  split
  · rename_i h1
    have hbyte : (byte value).toNat = value := toNat_byte (by omega)
    simp only [List.singleton_append, ecmaLineInfoDecodeSmall, hbyte, encodeTwoByteMin, h1, if_true]
  · split
    · rename_i h1 h2
      have hbyte : (byte (value - 254)).toNat = value - 254 := toNat_byte (by omega)
      have htype : (byte 254).toNat = 254 := rfl
      simp only [List.cons_append, List.nil_append, ecmaLineInfoDecodeSmall, encodeTwoByteMin, hbyte, htype]
      simp only [Nat.lt_irrefl, if_false, if_true]
      rw [Nat.sub_add_cancel (by omega)]
    · rename_i h1 h2
      have htype : (byte 255).toNat = 255 := rfl
      have hmod : (value - 510 + 510) % 2 ^ 32 = value := by
        rw [Nat.sub_add_cancel (by omega), Nat.mod_eq_of_lt h]
      simp only [List.cons_append, ecmaLineInfoDecodeSmall, encodeTwoByteMin, encodeVlqMin, htype]
      rw [if_neg (by decide), if_neg (by decide), decodeVlq_encodeVlq (by omega)]
      simp only [hmod]

theorem length_encodeSmall (value : Nat) :
    1 ≤ (parserLineInfoEncodeSmall value).length ∧ (parserLineInfoEncodeSmall value).length ≤ 6 := by
  have h := length_encodeVlq (value - encodeVlqMin)
  unfold parserLineInfoEncodeSmall
  split
  · simp
  · split
    · simp
    · rw [List.length_cons]; omega

/-! ## Differences -/

/-- `parser_line_info_difference_get`. -/
def parserLineInfoDifferenceGet (currentValue prevValue : Counter) : Nat :=
  let result := (currentValue - prevValue - 1#32).toNat
  if result ≤ 2 ^ 31 - 1 then result * 2 else (2 ^ 32 - 1 - result) * 2 + 1

/-- `ecma_line_info_difference_update`. -/
def ecmaLineInfoDifferenceUpdate (currentValue : Counter) (differenceValue : Nat) : Counter :=
  if differenceValue % 2 = 0 then currentValue + BitVec.ofNat 32 (differenceValue / 2) + 1#32
  else currentValue - BitVec.ofNat 32 (differenceValue / 2)

theorem differenceGet_lt (cur prev : Counter) : parserLineInfoDifferenceGet cur prev < 2 ^ 32 := by
  unfold parserLineInfoDifferenceGet
  have := (cur - prev - 1#32).isLt
  simp only
  split <;> omega

theorem differenceUpdate_get (cur prev : Counter) :
    ecmaLineInfoDifferenceUpdate prev (parserLineInfoDifferenceGet cur prev) = cur := by
  have hlt := (cur - prev - 1#32).isLt
  have hres : prev + (cur - prev - 1#32) + 1#32 = cur := by bv_omega
  simp only [parserLineInfoDifferenceGet, ecmaLineInfoDifferenceUpdate]
  split
  · rw [if_pos (by omega), Nat.mul_div_cancel _ (by decide), BitVec.ofNat_toNat, BitVec.setWidth_eq, hres]
  · rw [if_neg (by omega), show ((2 ^ 32 - 1 - (cur - prev - 1#32).toNat) * 2 + 1) / 2 =
      2 ^ 32 - 1 - (cur - prev - 1#32).toNat by omega]
    have hneg : prev - BitVec.ofNat 32 (2 ^ 32 - 1 - (cur - prev - 1#32).toNat) =
        prev + (cur - prev - 1#32) + 1#32 := by
      generalize cur - prev - 1#32 = d at *
      apply BitVec.eq_of_toNat_eq
      simp only [BitVec.toNat_sub, BitVec.toNat_add, BitVec.toNat_ofNat]
      omega
    rw [hneg, hres]

/-- A difference moves every value by the same amount. -/
theorem differenceUpdate_sub (x y : Counter) (d : Nat) :
    ecmaLineInfoDifferenceUpdate x d - x = ecmaLineInfoDifferenceUpdate y d - y := by
  unfold ecmaLineInfoDifferenceUpdate
  split <;> bv_omega

/-- Only the difference of equal values leaves a value as it is. -/
theorem differenceUpdate_ne {prev cur other : Counter} (h : cur ≠ prev) :
    ecmaLineInfoDifferenceUpdate other (parserLineInfoDifferenceGet cur prev) ≠ other := by
  intro heq
  have hsub := differenceUpdate_sub other prev (parserLineInfoDifferenceGet cur prev)
  rw [heq, differenceUpdate_get] at hsub
  refine h ?_
  bv_omega

end LineInfo
end JJS
