import Mathlib.Data.Nat.Bitwise
import Mathlib.Algebra.BigOperators.Group.List.Basic

/-!
# JJS.ExtendedInfo

The numbers of the extended info of a byte code (`ecma-extended-info.c`): vlq that is written and read towards lower
addresses.

The encoder finds the length of a number in a loop of its own, goes down by it, writes the groups upwards and clears the
flag of the lowest byte. What it leaves is `Stored`: seven bits a byte, the lowest group at the lowest address, and a flag on
all bytes but that one. The decoder reads such bytes back (`decodeVlqLoop_stored`), so numbers that are encoded one after
another are decoded in the same order (`vlq_round_trip`).

Addresses are integers: there is always room below.
-/

namespace JJS
namespace ExtendedInfo

/-- The bytes in memory. -/
abbrev Memory : Type := Int → BitVec 8

/-- `ECMA_EXTENDED_INFO_VLQ_CONTINUE`. -/
def vlqContinue : Nat := 0x80

/-- `ECMA_EXTENDED_INFO_VLQ_MASK`. -/
def vlqMask : Nat := 0x7f

/-- `ECMA_EXTENDED_INFO_VLQ_SHIFT`. -/
def vlqShift : Nat := 7

/-! ## The source -/

/-- The loop of `ecma_extended_info_decode_vlq`; `none` when it needs more rounds. -/
def decodeVlqLoop (memory : Memory) : Nat → BitVec 32 → Int → Option (BitVec 32 × Int)
  | 0, _, _ => none
  | rounds + 1, value, source =>
    let source := source - 1
    let value := value <<< vlqShift ||| (memory source &&& BitVec.ofNat 8 vlqMask).setWidth 32
    if memory source &&& BitVec.ofNat 8 vlqContinue ≠ 0#8 then decodeVlqLoop memory rounds value source
    else some (value, source)

/-- `ecma_extended_info_decode_vlq`: the value and the new position. -/
def ecmaExtendedInfoDecodeVlq (memory : Memory) (rounds : Nat) (buffer : Int) : Option (BitVec 32 × Int) :=
  decodeVlqLoop memory rounds 0#32 buffer

/-- The loop that counts the groups of a number. A number of 32 bits has at most five. -/
def lengthLoop : Nat → Nat → BitVec 32 → Nat
  | 0, length, _ => length
  | rounds + 1, length, value =>
    let value := value >>> vlqShift
    if 0#32 < value then lengthLoop rounds (length + 1) value else length + 1

/-- `ecma_extended_info_get_encoded_length`. -/
def ecmaExtendedInfoGetEncodedLength (value : BitVec 32) : Nat := lengthLoop 5 0 value

/-- The loop that writes the groups of a number. -/
def writeLoop : Nat → Memory → Int → BitVec 32 → Memory
  | 0, memory, _, _ => memory
  | rounds + 1, memory, destination, value =>
    let memory := Function.update memory destination ((value ||| BitVec.ofNat 32 vlqContinue).setWidth 8)
    let value := value >>> vlqShift
    if 0#32 < value then writeLoop rounds memory (destination + 1) value else memory

/-- `ecma_extended_info_encode_vlq`: the memory and the new position. -/
def ecmaExtendedInfoEncodeVlq (memory : Memory) (buffer : Int) (value : BitVec 32) : Memory × Int :=
  let destination := buffer - 1
  if value ≤ BitVec.ofNat 32 vlqMask then (Function.update memory destination (value.setWidth 8), destination)
  else
    let length := lengthLoop 5 0 (value >>> vlqShift)
    let destination := destination - length
    let memory := writeLoop 5 memory destination value
    (Function.update memory destination (memory destination &&& BitVec.ofNat 8 vlqMask), destination)

/-- Numbers are encoded one after another. -/
def encodeAll (memory : Memory) (buffer : Int) : List (BitVec 32) → Memory × Int
  | [] => (memory, buffer)
  | value :: values =>
    let (memory, buffer) := ecmaExtendedInfoEncodeVlq memory buffer value
    encodeAll memory buffer values

/-- So many numbers are decoded one after another. -/
def decodeAll (memory : Memory) (rounds : Nat) (buffer : Int) : Nat → Option (List (BitVec 32) × Int)
  | 0 => some ([], buffer)
  | count + 1 => do
    let (value, buffer) ← ecmaExtendedInfoDecodeVlq memory rounds buffer
    let (values, buffer) ← decodeAll memory rounds buffer count
    some (value :: values, buffer)

/-! ## Groups -/

/-- `n` groups of seven bits are just enough for the number. -/
def Groups (v n : Nat) : Prop := 0 < n ∧ v < 128 ^ n ∧ (n = 1 ∨ 128 ^ (n - 1) ≤ v)

/-- The byte of a group in memory. -/
def groupByte (v i : Nat) : Nat := v / 128 ^ i % 128 + if i = 0 then 0 else 128

/-- The bytes of a number, the lowest group at `low`. -/
def Stored (memory : Memory) (low : Int) (v n : Nat) : Prop := ∀ i < n, (memory (low + i)).toNat = groupByte v i

theorem groups_one {v : Nat} (h : v < 128) : Groups v 1 := ⟨Nat.one_pos, by rwa [Nat.pow_one], Or.inl rfl⟩

/-- One more group in front of the others. -/
theorem groups_succ {v n : Nat} (hpos : v / 128 ≠ 0) : Groups v (n + 1) ↔ Groups (v / 128) n := by
  constructor
  · intro h
    obtain ⟨-, hlt, hleast⟩ := h
    cases n with
    | zero =>
      rw [Nat.zero_add, Nat.pow_one] at hlt
      exact absurd (Nat.div_eq_of_lt hlt) hpos
    | succ n =>
      refine ⟨Nat.succ_pos n, ?_, ?_⟩
      · rw [Nat.div_lt_iff_lt_mul (by decide), ← Nat.pow_succ]
        exact hlt
      · cases hleast with
        | inl hone => omega
        | inr hge =>
          refine Or.inr ?_
          rw [Nat.le_div_iff_mul_le (by decide), Nat.add_sub_cancel, ← Nat.pow_succ]
          exact hge
  · intro h
    obtain ⟨hn, hlt, hleast⟩ := h
    refine ⟨Nat.succ_pos n, ?_, Or.inr ?_⟩
    · rw [Nat.pow_succ]
      exact (Nat.div_lt_iff_lt_mul (by decide)).mp hlt
    · rw [Nat.add_sub_cancel]
      cases hleast with
      | inl hone =>
        rw [hone, Nat.pow_one]
        omega
      | inr hge =>
        obtain ⟨m, rfl⟩ : ∃ m, n = m + 1 := ⟨n - 1, by omega⟩
        rw [Nat.pow_succ]
        exact (Nat.le_div_iff_mul_le (by decide)).mp hge

theorem groups_le {v n m : Nat} (hn : Groups v n) (hm : Groups v m) : n ≤ m := by
  cases hn.2.2 with
  | inl hone =>
    have hpos := hm.1
    omega
  | inr hge =>
    have hpow : 128 ^ (n - 1) < 128 ^ m := Nat.lt_of_le_of_lt hge hm.2.1
    have hlt := (Nat.pow_lt_pow_iff_right (by decide)).mp hpow
    omega

theorem groups_unique {v n m : Nat} (hn : Groups v n) (hm : Groups v m) : n = m :=
  Nat.le_antisymm (groups_le hn hm) (groups_le hm hn)

theorem groups_small {v n : Nat} (h : v / 128 = 0) (hn : Groups v n) : n = 1 :=
  groups_unique hn (groups_one (by omega))

/-! ## Words -/

theorem toNat_shift (value : BitVec 32) : (value >>> vlqShift).toNat = value.toNat / 128 := by
  rw [BitVec.toNat_ushiftRight, Nat.shiftRight_eq_div_pow]
  rfl

theorem zero_lt_iff (value : BitVec 32) : 0#32 < value ↔ value.toNat ≠ 0 := by
  rw [BitVec.lt_def, BitVec.toNat_zero]
  exact Nat.pos_iff_ne_zero

set_option maxRecDepth 2000 in
theorem or_continue : ∀ x < 2 ^ 8, x ||| 128 = x % 128 + 128 := by decide

set_option maxRecDepth 2000 in
theorem and_continue : ∀ x < 2 ^ 8, x &&& 128 = 0 ↔ ¬ 128 ≤ x := by decide

/-- The byte that the encoder writes for a group. -/
theorem toNat_continued (value : BitVec 32) :
    ((value ||| BitVec.ofNat 32 vlqContinue).setWidth 8).toNat = value.toNat % 128 + 128 := by
  have hor : (value.toNat ||| 128) % 2 ^ 8 = value.toNat % 2 ^ 8 ||| 128 := by
    rw [Nat.or_mod_two_pow]
  rw [BitVec.toNat_setWidth, BitVec.toNat_or, show (BitVec.ofNat 32 vlqContinue).toNat = 128 from rfl, hor,
    or_continue _ (Nat.mod_lt _ (by decide))]
  omega

theorem toNat_masked (b : BitVec 8) : (b &&& BitVec.ofNat 8 vlqMask).toNat = b.toNat % 128 := by
  rw [BitVec.toNat_and]
  exact Nat.and_two_pow_sub_one_eq_mod b.toNat 7

theorem continues_iff (b : BitVec 8) : b &&& BitVec.ofNat 8 vlqContinue ≠ 0#8 ↔ 128 ≤ b.toNat := by
  have hb := and_continue b.toNat b.isLt
  rw [Ne, ← BitVec.toNat_inj, BitVec.toNat_and]
  exact (not_congr hb).trans not_not

/-- A group is put behind the ones that were read. -/
theorem toNat_appended {value : BitVec 32} (b : BitVec 8) (h : value.toNat * 128 < 2 ^ 32) :
    (value <<< vlqShift ||| (b &&& BitVec.ofNat 8 vlqMask).setWidth 32).toNat = value.toNat * 128 + b.toNat % 128 := by
  have hlow : b.toNat % 128 < 2 ^ 7 := Nat.mod_lt _ (by decide)
  rw [BitVec.toNat_or, BitVec.toNat_shiftLeft, BitVec.toNat_setWidth, toNat_masked,
    Nat.mod_eq_of_lt (show b.toNat % 128 < 2 ^ 32 by omega), Nat.shiftLeft_eq, show 2 ^ vlqShift = 128 from rfl,
    Nat.mod_eq_of_lt h, show value.toNat * 128 = value.toNat <<< 7 from (Nat.shiftLeft_eq value.toNat 7).symm,
    ← Nat.shiftLeft_add_eq_or_of_lt hlow]

/-! ## Encoding -/

theorem lengthLoop_spec : ∀ rounds length (value : BitVec 32), value.toNat < 128 ^ (rounds + 1) →
    ∃ n, lengthLoop (rounds + 1) length value = length + n ∧ Groups value.toNat n := by
  intro rounds
  induction rounds with
  | zero =>
    intro length value h
    have hdiv : value.toNat / 128 = 0 := Nat.div_eq_of_lt h
    refine ⟨1, ?_, groups_one h⟩
    rw [lengthLoop]
    simp only [zero_lt_iff, toNat_shift, hdiv, ne_eq, not_true_eq_false, if_false]
  | succ rounds ih =>
    intro length value h
    rw [lengthLoop]
    simp only [zero_lt_iff, toNat_shift]
    split
    · rename_i hpos
      have hlt : (value >>> vlqShift).toNat < 128 ^ (rounds + 1) := by
        rw [toNat_shift, Nat.div_lt_iff_lt_mul (by decide), ← Nat.pow_succ]
        exact h
      obtain ⟨n, hn, hgroups⟩ := ih (length + 1) (value >>> vlqShift) hlt
      rw [toNat_shift] at hgroups
      exact ⟨n + 1, by omega, (groups_succ hpos).mpr hgroups⟩
    · rename_i hzero
      have hdiv : value.toNat / 128 = 0 := not_not.mp hzero
      exact ⟨1, rfl, groups_one (by omega)⟩

theorem getEncodedLength_groups (value : BitVec 32) : Groups value.toNat (ecmaExtendedInfoGetEncodedLength value) := by
  obtain ⟨n, hn, hgroups⟩ := lengthLoop_spec 4 0 value (by have := value.isLt; omega)
  rw [ecmaExtendedInfoGetEncodedLength, hn, Nat.zero_add]
  exact hgroups

/-- All groups are written with the flag, and nothing else is. -/
theorem writeLoop_spec : ∀ rounds (memory : Memory) (destination : Int) (value : BitVec 32) (n : Nat),
    value.toNat < 128 ^ (rounds + 1) → Groups value.toNat n →
    (∀ i < n, (writeLoop (rounds + 1) memory destination value (destination + i)).toNat =
      value.toNat / 128 ^ i % 128 + 128) ∧
    ∀ a, a < destination ∨ destination + n ≤ a → writeLoop (rounds + 1) memory destination value a = memory a := by
  intro rounds
  induction rounds with
  | zero =>
    intro memory destination value n h hgroups
    have hdiv : value.toNat / 128 = 0 := Nat.div_eq_of_lt h
    rw [groups_small hdiv hgroups, writeLoop]
    simp only [zero_lt_iff, toNat_shift, hdiv, ne_eq, not_true_eq_false, if_false]
    refine ⟨?_, ?_⟩
    · intro i hi
      rw [show i = 0 by omega, Int.natCast_zero, Int.add_zero, Function.update_self, toNat_continued, Nat.pow_zero,
        Nat.div_one]
    · intro a ha
      exact Function.update_of_ne (by omega) _ _
  | succ rounds ih =>
    intro memory destination value n h hgroups
    rw [writeLoop]
    simp only [zero_lt_iff, toNat_shift]
    split
    · rename_i hpos
      obtain ⟨m, rfl⟩ : ∃ m, n = m + 1 := ⟨n - 1, by have := hgroups.1; omega⟩
      have hlt : (value >>> vlqShift).toNat < 128 ^ (rounds + 1) := by
        rw [toNat_shift, Nat.div_lt_iff_lt_mul (by decide), ← Nat.pow_succ]
        exact h
      have hrest := (groups_succ hpos).mp hgroups
      rw [← toNat_shift] at hrest
      obtain ⟨hbytes, hframe⟩ := ih (Function.update memory destination
        ((value ||| BitVec.ofNat 32 vlqContinue).setWidth 8)) (destination + 1) (value >>> vlqShift) m hlt hrest
      refine ⟨?_, ?_⟩
      · intro i hi
        cases i with
        | zero =>
          rw [Int.natCast_zero, Int.add_zero, hframe destination (by omega), Function.update_self, toNat_continued,
            Nat.pow_zero, Nat.div_one]
        | succ i =>
          have hbyte := hbytes i (by omega)
          rw [toNat_shift, Nat.div_div_eq_div_mul, ← Nat.pow_succ'] at hbyte
          rw [show destination + ((i + 1 : Nat) : Int) = destination + 1 + i by omega]
          exact hbyte
      · intro a ha
        rw [hframe a (by omega), Function.update_of_ne (by omega)]
    · rename_i hzero
      have hdiv : value.toNat / 128 = 0 := not_not.mp hzero
      rw [groups_small hdiv hgroups]
      refine ⟨?_, ?_⟩
      · intro i hi
        rw [show i = 0 by omega, Int.natCast_zero, Int.add_zero, Function.update_self, toNat_continued, Nat.pow_zero,
          Nat.div_one]
      · intro a ha
        exact Function.update_of_ne (by omega) _ _

/-- The encoder goes down by the encoded length, and leaves the bytes of the number there. -/
theorem encodeVlq_spec (memory : Memory) (buffer : Int) (value : BitVec 32) :
    (ecmaExtendedInfoEncodeVlq memory buffer value).2 = buffer - ecmaExtendedInfoGetEncodedLength value ∧
      Stored (ecmaExtendedInfoEncodeVlq memory buffer value).1 (buffer - ecmaExtendedInfoGetEncodedLength value)
        value.toNat (ecmaExtendedInfoGetEncodedLength value) ∧
      ∀ a, a < buffer - ecmaExtendedInfoGetEncodedLength value ∨ buffer ≤ a →
        (ecmaExtendedInfoEncodeVlq memory buffer value).1 a = memory a := by
  have hgroups := getEncodedLength_groups value
  generalize ecmaExtendedInfoGetEncodedLength value = n at hgroups ⊢
  have hlt := value.isLt
  rw [ecmaExtendedInfoEncodeVlq]
  simp only [BitVec.le_def, show (BitVec.ofNat 32 vlqMask).toNat = 127 from rfl]
  split
  · rename_i hsmall
    have hone := groups_small (Nat.div_eq_of_lt (by omega)) hgroups
    subst hone
    refine ⟨rfl, ?_, ?_⟩
    · intro i hi
      dsimp only
      rw [show i = 0 by omega, groupByte, if_pos rfl, Nat.pow_zero, Nat.div_one, Nat.add_zero, Int.natCast_zero,
        Int.add_zero, Int.natCast_one, Function.update_self, BitVec.toNat_setWidth]
      omega
    · intro a ha
      exact Function.update_of_ne (by omega) _ _
  · rename_i hlarge
    -- the length is counted from the second group on
    have hpos : value.toNat / 128 ≠ 0 := by omega
    obtain ⟨m, rfl⟩ : ∃ m, n = m + 1 := ⟨n - 1, by have := hgroups.1; omega⟩
    obtain ⟨m', hlength, hgroups'⟩ := lengthLoop_spec 4 0 (value >>> vlqShift) (by rw [toNat_shift]; omega)
    have hsame : m' = m := by
      rw [toNat_shift] at hgroups'
      have hone := (groups_succ hpos).mpr hgroups'
      exact Nat.succ_injective (groups_unique hone hgroups)
    rw [hlength, Nat.zero_add, hsame]
    obtain ⟨hbytes, hframe⟩ := writeLoop_spec 4 memory (buffer - 1 - m) value (m + 1) (by omega) hgroups
    have hlow : buffer - ((m + 1 : Nat) : Int) = buffer - 1 - m := by omega
    rw [hlow]
    refine ⟨rfl, ?_, ?_⟩
    · intro i hi
      have hbyte := hbytes i hi
      dsimp only
      cases i with
      | zero =>
        rw [Int.natCast_zero, Int.add_zero] at hbyte ⊢
        rw [Function.update_self, toNat_masked, hbyte, groupByte, if_pos rfl]
        omega
      | succ i =>
        rw [Function.update_of_ne (by omega), hbyte, groupByte, if_neg (Nat.succ_ne_zero i)]
    · intro a ha
      dsimp only
      rw [Function.update_of_ne (by omega), hframe a (by omega)]

/-! ## Decoding -/

/-- From above group `k` on, the decoder reads the groups down to the lowest one. -/
theorem decodeVlqLoop_stored {memory : Memory} {low : Int} {v : BitVec 32} {n : Nat} (hstored : Stored memory low v.toNat n) :
    ∀ k rounds (value : BitVec 32), k < n → k < rounds → value.toNat = v.toNat / 128 ^ (k + 1) →
      decodeVlqLoop memory rounds value (low + (k + 1 : Nat)) = some (v, low) := by
  intro k
  induction k with
  | zero =>
    intro rounds value hn hrounds hvalue
    obtain ⟨rounds, rfl⟩ : ∃ r, rounds = r + 1 := ⟨rounds - 1, by omega⟩
    have hbyte := hstored 0 hn
    rw [groupByte, if_pos rfl, Nat.pow_zero, Nat.div_one, Nat.add_zero, Int.natCast_zero, Int.add_zero] at hbyte
    have hlt := v.isLt
    rw [Nat.zero_add, Nat.pow_one] at hvalue
    have hread : (value <<< vlqShift ||| (memory low &&& BitVec.ofNat 8 vlqMask).setWidth 32) = v := by
      apply BitVec.eq_of_toNat_eq
      rw [toNat_appended _ (by omega), hbyte]
      omega
    rw [decodeVlqLoop, show low + ((0 + 1 : Nat) : Int) - 1 = low by omega]
    simp only [continues_iff]
    rw [if_neg (by omega), hread]
  | succ k ih =>
    intro rounds value hn hrounds hvalue
    obtain ⟨rounds, rfl⟩ : ∃ r, rounds = r + 1 := ⟨rounds - 1, by omega⟩
    have hbyte := hstored (k + 1) hn
    rw [groupByte, if_neg (Nat.succ_ne_zero k)] at hbyte
    have hdiv : v.toNat / 128 ^ (k + 1 + 1) = v.toNat / 128 ^ (k + 1) / 128 := by
      rw [Nat.div_div_eq_div_mul, ← Nat.pow_succ]
    have hle : v.toNat / 128 ^ (k + 1) ≤ v.toNat := Nat.div_le_self _ _
    have hlt := v.isLt
    rw [decodeVlqLoop, show low + ((k + 1 + 1 : Nat) : Int) - 1 = low + (k + 1 : Nat) by omega]
    simp only [continues_iff]
    rw [if_pos (by omega)]
    refine ih rounds _ (by omega) (by omega) ?_
    rw [toNat_appended _ (by omega), hbyte]
    omega

theorem decodeVlq_stored {memory : Memory} {low : Int} {v : BitVec 32} {n rounds : Nat} (hrounds : 5 ≤ rounds)
    (hgroups : Groups v.toNat n) (hstored : Stored memory low v.toNat n) :
    ecmaExtendedInfoDecodeVlq memory rounds (low + n) = some (v, low) := by
  obtain ⟨k, rfl⟩ : ∃ k, n = k + 1 := ⟨n - 1, by have := hgroups.1; omega⟩
  have hfive : Groups v.toNat (k + 1) → k < 5 := by
    intro h
    by_contra hge
    have hpow : 128 ^ 5 ≤ 128 ^ k := Nat.pow_le_pow_right (by decide) (by omega)
    have hlt := v.isLt
    cases h.2.2 with
    | inl hone => omega
    | inr hle =>
      rw [Nat.add_sub_cancel] at hle
      omega
  have hk := hfive hgroups
  refine decodeVlqLoop_stored hstored k rounds 0#32 (by omega) (by omega) ?_
  rw [Nat.div_eq_of_lt hgroups.2.1]
  rfl

/-! ## Numbers in a row -/

/-- Numbers that follow lie below: what is at the buffer and above stays. -/
theorem encodeAll_spec : ∀ (values : List (BitVec 32)) (memory : Memory) (buffer : Int),
    (encodeAll memory buffer values).2 = buffer - (values.map ecmaExtendedInfoGetEncodedLength).sum ∧
      ∀ a, a < (encodeAll memory buffer values).2 ∨ buffer ≤ a → (encodeAll memory buffer values).1 a = memory a := by
  intro values
  induction values with
  | nil =>
    intro memory buffer
    exact ⟨(Int.sub_zero buffer).symm, fun _ _ => rfl⟩
  | cons value values ih =>
    intro memory buffer
    obtain ⟨hposition, -, hframe⟩ := encodeVlq_spec memory buffer value
    rw [encodeAll]
    rcases hencode : ecmaExtendedInfoEncodeVlq memory buffer value with ⟨memory', buffer'⟩
    rw [hencode] at hposition hframe
    dsimp only at hposition hframe ⊢
    obtain ⟨hend, hrest⟩ := ih memory' buffer'
    refine ⟨?_, ?_⟩
    · rw [hend, hposition, List.map_cons, List.sum_cons]
      omega
    · intro a ha
      rw [hrest a (by omega), hframe a (by omega)]

/-- Numbers that are encoded one after another are decoded in the same order, down to the same address. -/
theorem decodeAll_encodeAll (extra : Nat) : ∀ (values : List (BitVec 32)) (memory : Memory) (buffer : Int),
    decodeAll (encodeAll memory buffer values).1 (extra + 5) buffer values.length =
      some (values, (encodeAll memory buffer values).2) := by
  intro values
  induction values with
  | nil => exact fun _ _ => rfl
  | cons value values ih =>
    intro memory buffer
    obtain ⟨hposition, hstored, -⟩ := encodeVlq_spec memory buffer value
    rw [encodeAll]
    rcases hencode : ecmaExtendedInfoEncodeVlq memory buffer value with ⟨memory', buffer'⟩
    rw [hencode] at hposition hstored
    dsimp only at hposition hstored ⊢
    -- the numbers below leave the bytes of this one as they are
    have hkept : Stored (encodeAll memory' buffer' values).1 (buffer - ecmaExtendedInfoGetEncodedLength value) value.toNat
        (ecmaExtendedInfoGetEncodedLength value) := by
      intro i hi
      rw [(encodeAll_spec values memory' buffer').2 _ (Or.inr (by omega))]
      exact hstored i hi
    have hdecode := decodeVlq_stored (show 5 ≤ extra + 5 by omega) (getEncodedLength_groups value) hkept
    rw [Int.sub_add_cancel, ← hposition] at hdecode
    simp only [decodeAll, List.length_cons, hdecode, Option.bind_eq_bind, Option.bind_some, ih memory' buffer']

/-- The numbers come back in their order from the bytes that the encoder left, and every one of them takes the bytes of its
encoded length and no others. -/
theorem vlq_round_trip (extra : Nat) (values : List (BitVec 32)) (memory : Memory) (buffer : Int) :
    decodeAll (encodeAll memory buffer values).1 (extra + 5) buffer values.length =
        some (values, (encodeAll memory buffer values).2) ∧
      (encodeAll memory buffer values).2 = buffer - (values.map ecmaExtendedInfoGetEncodedLength).sum ∧
      (∀ a, a < (encodeAll memory buffer values).2 ∨ buffer ≤ a → (encodeAll memory buffer values).1 a = memory a) ∧
      ∀ (memory : Memory) (buffer : Int) (value : BitVec 32),
        (ecmaExtendedInfoEncodeVlq memory buffer value).2 = buffer - ecmaExtendedInfoGetEncodedLength value ∧
          ecmaExtendedInfoDecodeVlq (ecmaExtendedInfoEncodeVlq memory buffer value).1 (extra + 5) buffer =
            some (value, buffer - ecmaExtendedInfoGetEncodedLength value) ∧
          ∀ a, a < buffer - ecmaExtendedInfoGetEncodedLength value ∨ buffer ≤ a →
            (ecmaExtendedInfoEncodeVlq memory buffer value).1 a = memory a := by
  obtain ⟨hend, hframe⟩ := encodeAll_spec values memory buffer
  refine ⟨decodeAll_encodeAll extra values memory buffer, hend, hframe, ?_⟩
  intro memory buffer value
  obtain ⟨hposition, hstored, hothers⟩ := encodeVlq_spec memory buffer value
  have hdecode := decodeVlq_stored (show 5 ≤ extra + 5 by omega) (getEncodedLength_groups value) hstored
  rw [Int.sub_add_cancel] at hdecode
  exact ⟨hposition, hdecode, hothers⟩

end ExtendedInfo
end JJS
