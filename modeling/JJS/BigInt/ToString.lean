import JJS.BigInt.Kernel
import JJS.BigInt.Value

/-!
# JJS.BigInt.ToString

`ecma_big_uint_to_string`. The digits are at the front of a buffer and the characters are written from its end, so
that both have to fit while the digits shrink. The size of the buffer is computed from the number of bits that a
character of the radix stands for at least.
-/

namespace JJS
namespace BigInt

open Radix

abbrev Char8 := BitVec 8

/-- The size of the result buffer. The sizes are less than `2 ^ 32`. -/
def stringBufferSize (size radix : Nat) : Nat :=
  let maxSize := size * 8
  let maxSize :=
    if radix < 16 then
      if 8 ≤ radix then (maxSize + 2) / 3
      else if 4 ≤ radix then (maxSize + 1) >>> 1
      else maxSize
    else if radix < 32 then (maxSize + 3) >>> 2
    else (maxSize + 4) / 5
  (maxSize + (2 * 4 - 1)) / 4 * 4

/-- The character of a remainder. -/
def radixChar (remainder : Digit) : Char8 :=
  if remainder < 10#32 then (remainder + 0x30#32).setWidth 8 else (remainder + (0x61#32 - 10#32)).setWidth 8

/-- The division of the digits, by the size of a pointer. -/
def dividePass (wide : Bool) (radix : Digit) (digits : List Digit) : List Digit × Digit :=
  if wide then dividePassWide radix digits else dividePassNarrow radix digits

/-- The loop of `ecma_big_uint_to_string`. `string_p` is at `stringP` bytes from the start of the buffer and `start_p`
is behind the digits. The characters from `string_p` on come last. -/
def toStringLoop (wide : Bool) (radix : Digit) : Nat → List Digit → List Char8 → Res (Nat × List Char8)
  | 0, _, _ => .error .assertion
  | stringP + 1, digits, chars => do
    let t := dividePass wide radix digits
    jjsAssert (4 * digits.length ≤ stringP)
    let rest := if t.1.getLastD 0#32 = 0#32 then t.1.dropLast else t.1
    if rest = [] then .ok (stringP, radixChar t.2 :: chars)
    else toStringLoop wide radix stringP rest (radixChar t.2 :: chars)

/-- `ecma_big_uint_to_string`: the offset of the first character, the size of the buffer, and the characters. -/
def ecmaBigUintToString (wide : Bool) (value : List Digit) (radix : Digit) : Res (Nat × Nat × List Char8) := do
  jjsAssert (2#32 ≤ radix ∧ radix ≤ 36#32)
  assertDigits value
  let size := stringBufferSize (4 * value.length) radix.toNat
  let t ← toStringLoop wide radix size value []
  .ok (t.1, size, t.2)

/-- `ecma_bigint_to_string`. -/
def ecmaBigintToString (wide : Bool) (value : Block) (radix : Digit) : Res (List Char8) :=
  if value = Block.zero then .ok [0x30#8]
  else do
    let t ← ecmaBigUintToString wide value.digits radix
    jjsAssert (0 < t.1)
    if value.sign then .ok (0x2d#8 :: t.2.2) else .ok t.2.2

/-! ## Numerals -/

/-- The character of a digit of a numeral. -/
def numeralChar (d : Nat) : Char8 := BitVec.ofNat 8 (if d < 10 then 0x30 + d else 0x61 + (d - 10))

/-- The canonical numeral of a number: no leading zeros, and lower case letters. -/
def numeral (radix n : Nat) : List Char8 := (Nat.digits radix n).reverse.map numeralChar

theorem radixChar_eq {remainder : Digit} (h : remainder.toNat < 36) : radixChar remainder = numeralChar remainder.toNat := by
  unfold radixChar numeralChar
  by_cases h10 : remainder.toNat < 10
  · have hlt : remainder < 10#32 := by
      rw [BitVec.lt_def]
      exact h10
    rw [if_pos hlt, if_pos h10]
    apply BitVec.eq_of_toNat_eq
    rw [BitVec.toNat_setWidth, BitVec.toNat_add, BitVec.toNat_ofNat, BitVec.toNat_ofNat]
    omega
  · have hge : ¬ remainder < 10#32 := by
      rw [BitVec.lt_def]
      exact h10
    have hoff : (0x61#32 - 10#32).toNat = 87 := rfl
    rw [if_neg hge, if_neg h10]
    apply BitVec.eq_of_toNat_eq
    rw [BitVec.toNat_setWidth, BitVec.toNat_add, BitVec.toNat_ofNat, hoff]
    omega

theorem numeral_of_pos {radix n : Nat} (hradix : 2 ≤ radix) (hn : 0 < n) :
    numeral radix n = numeral radix (n / radix) ++ [numeralChar (n % radix)] := by
  unfold numeral
  rw [Nat.digits_def' (by omega) hn, List.reverse_cons, List.map_append]
  rfl

/-! ## The size of the buffer -/

/-- The bits that a character stands for. -/
def bitsPerChar (radix : Nat) : Nat :=
  if radix < 16 then
    if 8 ≤ radix then 3
    else if 4 ≤ radix then 2
    else 1
  else if radix < 32 then 4
  else 5

theorem two_pow_bitsPerChar_le {radix : Nat} (h : 2 ≤ radix) : 2 ^ bitsPerChar radix ≤ radix := by
  unfold bitsPerChar
  split
  · split
    · assumption
    · split
      · assumption
      · exact h
  · rename_i h16
    split
    · exact Nat.le_of_not_lt h16
    · rename_i h32
      exact Nat.le_of_not_lt h32

/-- The buffer has room: `i` characters were written, and `k` of `n` digits are left. -/
theorem buffer_room {radix n i k : Nat} (hk : 0 < k) (h : bitsPerChar radix * i + 32 * (k - 1) < 32 * n) :
    i + 1 + 4 * k ≤ stringBufferSize (4 * n) radix := by
  unfold bitsPerChar at h
  unfold stringBufferSize
  dsimp only
  rw [Nat.shiftRight_eq_div_pow, Nat.shiftRight_eq_div_pow]
  split at h
  · split at h
    · rw [if_pos ‹_›, if_pos ‹_›]
      omega
    · split at h
      · rw [if_pos ‹_›, if_neg ‹_›, if_pos ‹_›]
        omega
      · rw [if_pos ‹_›, if_neg ‹_›, if_neg ‹_›]
        omega
  · split at h
    · rw [if_neg ‹_›, if_pos ‹_›]
      omega
    · rw [if_neg ‹_›, if_neg ‹_›]
      omega

/-! ## The loop -/

section

variable {radix : Digit} (hradix : 2 ≤ radix.toNat) (hmax : radix.toNat ≤ 36)

include hradix hmax

theorem dividePass_val (wide : Bool) (digits : List Digit) :
    (dividePass wide radix digits).1.length = digits.length ∧
      val (dividePass wide radix digits).1 = val digits / radix.toNat ∧
      (dividePass wide radix digits).2.toNat = val digits % radix.toNat := by
  have heq : dividePass wide radix digits = dividePassWide radix digits := by
    cases wide with
    | true => rfl
    | false => exact narrow_eq_wide hradix hmax digits
  have hzero : (0#32).toNat < radix.toNat := Nat.lt_of_lt_of_le (by decide) hradix
  obtain ⟨hl, hr, hv⟩ := divDigitLoop_val radix digits.reverse hzero
  rw [List.length_reverse] at hl
  rw [List.reverse_reverse, List.length_reverse, BitVec.toNat_zero, Nat.mul_zero, Nat.add_zero] at hv
  rw [heq]
  unfold dividePassWide
  dsimp only
  refine ⟨by rw [List.length_reverse, hl], ?_, ?_⟩
  · rw [← hv, Nat.mul_comm, Nat.mul_add_div (by omega), Nat.div_eq_of_lt hr, Nat.add_zero]
  · rw [← hv, Nat.mul_add_mod_self_right, Nat.mod_eq_of_lt hr]

/-- The digits that are left after a pass: no more than the top one became zero. -/
theorem rest_val {digits ds : List Digit} (hn : Trimmed digits) (hne : digits ≠ []) (hlen : ds.length = digits.length)
    (hv : val ds = val digits / radix.toNat) :
    Trimmed (if ds.getLastD 0#32 = 0#32 then ds.dropLast else ds) ∧
      val (if ds.getLastD 0#32 = 0#32 then ds.dropLast else ds) = val digits / radix.toNat := by
  have hpos := List.length_pos_iff.mpr hne
  obtain ⟨es, d, hds⟩ : ∃ es d, ds = es ++ [d] := by
    cases List.eq_nil_or_concat ds with
    | inl hnil =>
      rw [hnil] at hlen
      simp only [List.length_nil] at hlen
      omega
    | inr h =>
      obtain ⟨es, d, h⟩ := h
      exact ⟨es, d, by rw [h, List.concat_eq_append]⟩
  rw [hds, List.getLastD_concat, List.dropLast_concat]
  by_cases hd : d = 0#32
  · have hval : val es = val digits / radix.toNat := by
      rw [← hv, hds, hd, val_concat]
      simp
    rw [if_pos hd]
    refine ⟨?_, hval⟩
    have heslen : es.length + 1 = digits.length := by
      rw [← hlen, hds, List.length_append, List.length_singleton]
    cases hes : es.length with
    | zero =>
      rw [List.length_eq_zero_iff.mp hes]
      exact trimmed_nil
    | succ n =>
      refine trimmed_of_pow_le ?_
      have hge := hn.pow_le_val hne
      have hidx : digits.length - 1 = n + 1 := by omega
      rw [hidx, weight_succ] at hge
      rw [hval, hes, Nat.add_sub_cancel, Nat.le_div_iff_mul_le (by omega)]
      calc (2 ^ 32) ^ n * radix.toNat ≤ (2 ^ 32) ^ n * 2 ^ 32 := Nat.mul_le_mul_left _ (by omega)
        _ = 2 ^ 32 * (2 ^ 32) ^ n := Nat.mul_comm _ _
        _ ≤ val digits := hge
  · rw [if_neg hd]
    refine ⟨trimmed_concat.mpr hd, ?_⟩
    rw [← hds]
    exact hv

omit hmax in
/-- The characters that were written and the digits that are left stand for no more bits than there were. -/
theorem loop_room {digits : List Digit} {v n i : Nat} (hn : Trimmed digits) (hne : digits ≠ []) (hv : v < 2 ^ (32 * n))
    (hle : val digits * radix.toNat ^ i ≤ v) : i + 1 + 4 * digits.length ≤ stringBufferSize (4 * n) radix.toNat := by
  refine buffer_room (List.length_pos_iff.mpr hne) ?_
  have hchars : 2 ^ (bitsPerChar radix.toNat * i) ≤ radix.toNat ^ i := by
    rw [pow_mul]
    exact Nat.pow_le_pow_left (two_pow_bitsPerChar_le hradix) i
  have hdigits : 2 ^ (32 * (digits.length - 1)) ≤ val digits := by
    rw [pow_mul]
    exact hn.pow_le_val hne
  have hlt : 2 ^ (bitsPerChar radix.toNat * i + 32 * (digits.length - 1)) < 2 ^ (32 * n) := by
    calc 2 ^ (bitsPerChar radix.toNat * i + 32 * (digits.length - 1))
        = 2 ^ (32 * (digits.length - 1)) * 2 ^ (bitsPerChar radix.toNat * i) := by rw [Nat.add_comm, pow_add]
      _ ≤ val digits * radix.toNat ^ i := Nat.mul_le_mul hdigits hchars
      _ ≤ v := hle
      _ < 2 ^ (32 * n) := hv
  exact (Nat.pow_lt_pow_iff_right (by decide)).mp hlt

/-- From a state that the buffer has room for the loop writes the numeral of the digits that are left. -/
theorem toStringLoop_ok (wide : Bool) {v n : Nat} (hv : v < 2 ^ (32 * n)) (stringP : Nat) {digits : List Digit}
    {chars : List Char8} (i : Nat) (hn : Trimmed digits) (hne : digits ≠ []) (hle : val digits * radix.toNat ^ i ≤ v)
    (hsize : i + stringP = stringBufferSize (4 * n) radix.toNat) :
    ∃ start, toStringLoop wide radix stringP digits chars = .ok (start, numeral radix.toNat (val digits) ++ chars) ∧
      start + (numeral radix.toNat (val digits)).length = stringP ∧ 4 ≤ start := by
  induction stringP generalizing digits chars i with
  | zero =>
    have hroom := loop_room hradix hn hne hv hle
    omega
  | succ stringP ih =>
    have hroom := loop_room hradix hn hne hv hle
    have hpos := hn.val_pos hne
    have hlen := List.length_pos_iff.mpr hne
    obtain ⟨hl, hq, hr⟩ := dividePass_val hradix hmax wide digits
    obtain ⟨hrest, hrestval⟩ := rest_val hradix hmax hn hne hl hq
    have hchar : radixChar (dividePass wide radix digits).2 = numeralChar (val digits % radix.toNat) := by
      rw [radixChar_eq, hr]
      rw [hr]
      exact Nat.lt_of_lt_of_le (Nat.mod_lt _ (by omega)) hmax
    unfold toStringLoop
    dsimp only
    rw [jjsAssert_ok (by omega), ok_bind, hchar]
    generalize (if (dividePass wide radix digits).1.getLastD 0#32 = 0#32 then (dividePass wide radix digits).1.dropLast
      else (dividePass wide radix digits).1) = rest at hrest hrestval ⊢
    rw [numeral_of_pos hradix hpos, List.append_assoc, List.singleton_append]
    by_cases hnil : rest = []
    · have hzero : val digits / radix.toNat = 0 := by
        rw [← hrestval, hnil]
        rfl
      rw [if_pos hnil, hzero]
      refine ⟨stringP, ?_, ?_, by omega⟩
      · simp [numeral]
      · simp [numeral]
    · rw [if_neg hnil]
      have hnext : val rest * radix.toNat ^ (i + 1) ≤ v := by
        rw [hrestval, pow_succ']
        calc val digits / radix.toNat * (radix.toNat * radix.toNat ^ i)
            = val digits / radix.toNat * radix.toNat * radix.toNat ^ i := (Nat.mul_assoc _ _ _).symm
          _ ≤ val digits * radix.toNat ^ i := Nat.mul_le_mul_right _ (Nat.div_mul_le_self _ _)
          _ ≤ v := hle
      obtain ⟨start, h1, h2, h3⟩ := ih (i + 1) hrest hnil hnext (by omega)
      rw [hrestval] at h1 h2
      refine ⟨start, h1, ?_, h3⟩
      rw [List.length_append, List.length_singleton]
      omega

end

/-- The characters are the numeral of the magnitude. They never reach the digits, and there is room for a sign. -/
theorem ecmaBigUintToString_ok (wide : Bool) {value : List Digit} (hn : Trimmed value) (hne : value ≠ []) {radix : Digit}
    (hradix : 2 ≤ radix.toNat) (hmax : radix.toNat ≤ 36) :
    ∃ start, ecmaBigUintToString wide value radix =
        .ok (start, stringBufferSize (4 * value.length) radix.toNat, numeral radix.toNat (val value)) ∧
      0 < start ∧ start + (numeral radix.toNat (val value)).length = stringBufferSize (4 * value.length) radix.toNat := by
  have hassert : 2#32 ≤ radix ∧ radix ≤ 36#32 := by
    rw [BitVec.le_def, BitVec.le_def]
    exact ⟨hradix, hmax⟩
  have hv : val value < 2 ^ (32 * value.length) := by
    rw [pow_mul]
    exact val_lt value
  obtain ⟨start, h1, h2, h3⟩ := toStringLoop_ok hradix hmax wide hv (stringBufferSize (4 * value.length) radix.toNat)
    0 hn hne (by rw [pow_zero, Nat.mul_one]) (Nat.zero_add _)
  rw [List.append_nil] at h1
  refine ⟨start, ?_, by omega, h2⟩
  rw [ecmaBigUintToString, jjsAssert_ok hassert, ok_bind, assertDigits_ok hn hne, ok_bind]
  dsimp only
  rw [h1, ok_bind]

/-- The numeral with the sign of the number. -/
def signedNumeral (radix : Nat) (z : Int) : List Char8 :=
  if z = 0 then [0x30#8] else (if z < 0 then [0x2d#8] else []) ++ numeral radix z.natAbs

theorem ecmaBigintToString_ok (wide : Bool) (v : Value) {radix : Digit} (hradix : 2 ≤ radix.toNat)
    (hmax : radix.toNat ≤ 36) : ecmaBigintToString wide v.toBlock radix = .ok (signedNumeral radix.toNat v.toInt) := by
  unfold ecmaBigintToString signedNumeral
  by_cases h0 : v.toBlock = Block.zero
  · rw [if_pos h0, if_pos (toInt_of_eq_zero h0)]
  · have hne := ne_nil_of_ne_zero h0
    have hpos := v.trimmed.val_pos hne
    have hz : v.toInt ≠ 0 := by
      intro h
      have hval := v.natAbs_toInt
      rw [h] at hval
      exact Nat.ne_of_lt hpos hval
    obtain ⟨start, h1, h2, -⟩ := ecmaBigUintToString_ok wide v.trimmed hne hradix hmax
    rw [if_neg h0, if_neg hz, h1, ok_bind, jjsAssert_ok h2, ok_bind, v.natAbs_toInt]
    have hsign : v.toInt < 0 ↔ v.sign = true := by
      rw [toInt_eq]
      cases v.sign with
      | true => simp only [if_true, iff_true]; omega
      | false => simp only [Bool.false_eq_true, if_false, iff_false]; omega
    by_cases hs : v.sign = true
    · rw [if_pos hs, if_pos (hsign.mpr hs)]
      rfl
    · rw [if_neg hs, if_neg (mt hsign.mp hs)]
      rfl

end BigInt
end JJS
