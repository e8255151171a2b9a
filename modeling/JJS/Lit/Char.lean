import JJS.Lib.Ecma404
import JJS.Lit.Utf8

/-!
# JJS.Lit.Char

The parts of `lit-char-helpers.c` that build and read strings: the CESU-8 encoder
`lit_code_point_to_cesu8_bytes` and the reader of hexadecimal digits `lit_char_hex_lookup`.
-/

namespace JJS
namespace Lit

open Utf8

/-- `(uint8_t) (marker | (bits & mask))`. -/
def markedByte (marker : Byte) (mask bits : CodePoint) : Byte := marker ||| (bits &&& mask).setWidth 8

/-- `lit_code_point_to_cesu8_bytes`. -/
def litCodePointToCesu8Bytes (codePoint : CodePoint) : List Byte :=
  if codePoint < 0x80#32 then [codePoint.setWidth 8]
  else if codePoint < 0x800#32 then [markedByte 0xc0#8 0x1f#32 (codePoint >>> 6), markedByte 0x80#8 0x3f#32 codePoint]
  else if codePoint < 0x10000#32 then
    [markedByte 0xe0#8 0x0f#32 (codePoint >>> 12), markedByte 0x80#8 0x3f#32 (codePoint >>> 6),
      markedByte 0x80#8 0x3f#32 codePoint]
  else
    let rest := codePoint - 0x10000#32
    [0xe0#8 ||| 0xd#8, markedByte (0x80#8 ||| 0x20#8) 0x0f#32 (rest >>> 16), markedByte 0x80#8 0x3f#32 (rest >>> 10),
      0xe0#8 ||| 0xd#8, markedByte (0x80#8 ||| 0x30#8) 0x0f#32 (rest >>> 6), markedByte 0x80#8 0x3f#32 rest]

/-- `lit_char_is_decimal_digit`. -/
def litCharIsDecimalDigit (c : Byte) : Bool := decide (0x30#8 ≤ c) && decide (c ≤ 0x39#8)

/-- `LEXER_TO_ASCII_LOWERCASE`. -/
def lexerToAsciiLowercase (c : Byte) : Byte := c ||| 0x20#8

/-- `lit_char_is_hex_digit`. -/
def litCharIsHexDigit (c : Byte) : Bool :=
  litCharIsDecimalDigit c || (decide (0x61#8 ≤ lexerToAsciiLowercase c) && decide (lexerToAsciiLowercase c ≤ 0x66#8))

/-- `lit_char_hex_to_int`: `hex_offset` is `10 - (LIT_CHAR_LOWERCASE_A % 32)`. -/
def litCharHexToInt (c : Byte) : Nat :=
  if litCharIsDecimalDigit c then c.toNat - 0x30 else c.toNat % 32 + (10 - 0x61 % 32)

/-- The loop of `lit_char_hex_lookup`, with the buffer of its own length. -/
def hexLookupLoop (value : Nat) : List Byte → Option Nat
  | [] => some value
  | ch :: buf =>
    if litCharIsHexDigit ch then hexLookupLoop (value * 16 + litCharHexToInt ch) buf
    else none

/-- `lit_char_hex_lookup`. -/
def litCharHexLookup (buf : List Byte) (lookup : Nat) : Option Nat :=
  if buf.length < lookup then none else hexLookupLoop 0 (buf.take lookup)

/-- `lit_read_code_unit_from_cesu8_safe`, with the end of the buffer far enough: the number of bytes and the
code unit. The null case is a failed assertion. -/
def litReadCodeUnitFromCesu8 : List Byte → Option (Nat × CodeUnit)
  | [] => none
  | c :: rest =>
    if c &&& 0x80#8 = 0#8 then some (1, (c &&& 0x7f#8).setWidth 16)
    else if c &&& 0xe0#8 = 0xc0#8 then extra 2 ((c &&& 0x1f#8).setWidth 32) rest
    else if c &&& 0xf0#8 = 0xe0#8 then extra 3 ((c &&& 0x0f#8).setWidth 32) rest
    else none
where
  /-- The loop over the extra bytes. -/
  extra (bytesCount : Nat) (ret : CodePoint) (rest : List Byte) : Option (Nat × CodeUnit) :=
    if bytesCount ≤ rest.length + 1 then
      some (bytesCount, ((rest.take (bytesCount - 1)).foldl addExtraByte ret).setWidth 16)
    else none

/-- `lit_is_code_point_utf16_high_surrogate`. -/
def litIsHighSurrogate (c : CodeUnit) : Bool := decide (0xd800#16 ≤ c) && decide (c ≤ 0xdbff#16)

/-- `lit_is_code_point_utf16_low_surrogate`. -/
def litIsLowSurrogate (c : CodeUnit) : Bool := decide (0xdc00#16 ≤ c) && decide (c ≤ 0xdfff#16)

/-- The digit that `lit_char_unicode_escape` writes. -/
def escapeDigit (digit : Nat) : Byte := BitVec.ofNat 8 (digit + if digit ≤ 9 then 0x30 else 0x61 - 10)

/-- `lit_char_unicode_escape`. -/
def litCharUnicodeEscape (c : CodeUnit) : List Byte :=
  0x5c#8 :: 0x75#8 :: [3, 2, 1, 0].map fun i => escapeDigit (c.toNat / 2 ^ (i * 4) % 16)

/-! ## The encoder -/

theorem markedByte_eq {marker : Byte} {mask : CodePoint} (bits : CodePoint) {k : Nat} (hk : k ≤ 8)
    (hmask : mask.toNat = 2 ^ k - 1) (hmarker : marker.toNat % 2 ^ k = 0) :
    markedByte marker mask bits = BitVec.ofNat 8 (marker.toNat + bits.toNat % 2 ^ k) := by
  have h256 : 2 ^ k ≤ 2 ^ 8 := Nat.pow_le_pow_right (by decide) hk
  have hlt : bits.toNat % 2 ^ k < 2 ^ k := Nat.mod_lt _ (Nat.two_pow_pos k)
  have hval : ((bits &&& mask).setWidth 8 : Byte).toNat = bits.toNat % 2 ^ k := by
    rw [BitVec.toNat_setWidth, BitVec.toNat_and, hmask, Nat.and_two_pow_sub_one_eq_mod, Nat.mod_eq_of_lt (by omega)]
  rw [markedByte, marker_or hmarker (by rw [hval]; exact hlt), hval]

theorem toNat_shift (cp : CodePoint) (k : Nat) : (cp >>> k).toNat = cp.toNat / 2 ^ k := by
  rw [BitVec.toNat_ushiftRight, Nat.shiftRight_eq_div_pow]

/-- Below `0x10000` the code point is encoded as it is. -/
theorem litCodePointToCesu8Bytes_small {cp : CodePoint} (h : cp.toNat < 0x10000) :
    litCodePointToCesu8Bytes cp = encode cp.toNat := by
  have hlt : ∀ n, n < 2 ^ 32 → (cp < BitVec.ofNat 32 n ↔ cp.toNat < n) := by
    intro n hn
    rw [BitVec.lt_def, BitVec.toNat_ofNat, Nat.mod_eq_of_lt hn]
  rw [litCodePointToCesu8Bytes, encode]
  by_cases c1 : cp.toNat < 0x80
  · rw [if_pos ((hlt 0x80 (by decide)).mpr c1), if_pos c1]
    rfl
  · rw [if_neg (fun hc => c1 ((hlt 0x80 (by decide)).mp hc)), if_neg c1,
      markedByte_eq cp (k := 6) (by decide) rfl rfl]
    by_cases c2 : cp.toNat < 0x800
    · rw [if_pos ((hlt 0x800 (by decide)).mpr c2), if_pos c2,
        markedByte_eq _ (k := 5) (by decide) rfl rfl, toNat_shift,
        Nat.mod_eq_of_lt (show cp.toNat / 2 ^ 6 < 2 ^ 5 by omega)]
      rfl
    · rw [if_neg (fun hc => c2 ((hlt 0x800 (by decide)).mp hc)), if_neg c2, if_pos ((hlt 0x10000 (by decide)).mpr h),
        if_pos h, markedByte_eq _ (k := 4) (by decide) rfl rfl,
        markedByte_eq (cp >>> 6) (k := 6) (by decide) rfl rfl, toNat_shift, toNat_shift,
        Nat.mod_eq_of_lt (show cp.toNat / 2 ^ 12 < 2 ^ 4 by omega)]
      rfl

/-- The encoding of a surrogate. -/
theorem encode_surrogate {n : Nat} (h1 : 0xD800 ≤ n) (h2 : n ≤ 0xDFFF) :
    encode n = [0xed#8, BitVec.ofNat 8 (0x80 + n / 0x40 % 0x40), BitVec.ofNat 8 (0x80 + n % 0x40)] := by
  have hd : 0xE0 + n / 0x1000 = 0xED := by omega
  rw [encode, if_neg (by omega), if_neg (by omega), if_pos (by omega), hd]

theorem litCodePointToCesu8Bytes_large {cp : CodePoint} (h1 : 0x10000 ≤ cp.toNat) (h2 : cp.toNat ≤ 0x10FFFF) :
    litCodePointToCesu8Bytes cp =
      encode (0xD800 + (cp.toNat - 0x10000) / 0x400) ++ encode (0xDC00 + (cp.toNat - 0x10000) % 0x400) := by
  have hlt : ∀ n, n ≤ 0x10000 → ¬ cp < BitVec.ofNat 32 n := by
    intro n hn
    rw [BitVec.lt_def, BitVec.toNat_ofNat, Nat.mod_eq_of_lt (by omega)]
    omega
  have hrest : (cp - 0x10000#32).toNat = cp.toNat - 0x10000 := by
    rw [BitVec.toNat_sub_of_le (by rw [BitVec.le_def]; exact h1)]
    rfl
  rw [litCodePointToCesu8Bytes, if_neg (hlt 0x80 (by decide)), if_neg (hlt 0x800 (by decide)),
    if_neg (hlt 0x10000 (by decide)), encode_surrogate (by omega) (by omega), encode_surrogate (by omega) (by omega)]
  simp only []
  rw [markedByte_eq _ (k := 4) (by decide) rfl rfl,
    markedByte_eq _ (k := 6) (by decide) rfl rfl,
    markedByte_eq _ (k := 4) (by decide) rfl rfl,
    markedByte_eq _ (k := 6) (by decide) rfl rfl, toNat_shift, toNat_shift, toNat_shift, hrest]
  have e1 : 0x80 + (0xD800 + (cp.toNat - 0x10000) / 0x400) / 0x40 % 0x40 =
      (0x80#8 ||| 0x20#8).toNat + (cp.toNat - 0x10000) / 2 ^ 16 % 2 ^ 4 := by
    show _ = 0xA0 + _
    omega
  have e2 : 0x80 + (0xD800 + (cp.toNat - 0x10000) / 0x400) % 0x40 =
      (0x80#8).toNat + (cp.toNat - 0x10000) / 2 ^ 10 % 2 ^ 6 := by
    show _ = 0x80 + _
    omega
  have e3 : 0x80 + (0xDC00 + (cp.toNat - 0x10000) % 0x400) / 0x40 % 0x40 =
      (0x80#8 ||| 0x30#8).toNat + (cp.toNat - 0x10000) / 2 ^ 6 % 2 ^ 4 := by
    show _ = 0xB0 + _
    omega
  have e4 : 0x80 + (0xDC00 + (cp.toNat - 0x10000) % 0x400) % 0x40 =
      (0x80#8).toNat + (cp.toNat - 0x10000) % 2 ^ 6 := by
    show _ = 0x80 + _
    omega
  rw [e1, e2, e3, e4]
  rfl

/-- The encoder writes the code units of the code point. -/
theorem litCodePointToCesu8Bytes_units {cp : CodePoint} {c : Point} (h : cp.toNat = c.val) :
    litCodePointToCesu8Bytes cp = cesu8 c.units := by
  have hc := c.isLt
  rw [Point.units]
  split
  · rename_i hsmall
    rw [litCodePointToCesu8Bytes_small (by omega), cesu8_cons, cesu8_nil, List.append_nil, BitVec.toNat_ofNat,
      Nat.mod_eq_of_lt (by omega), h]
  · have hhigh : 0xD800 + (c.val - 0x10000) / 0x400 < 2 ^ 16 := by omega
    have hlow : 0xDC00 + (c.val - 0x10000) % 0x400 < 2 ^ 16 := by omega
    rw [litCodePointToCesu8Bytes_large (by omega) (by omega), cesu8_cons, cesu8_cons, cesu8_nil, List.append_nil,
      BitVec.toNat_ofNat, BitVec.toNat_ofNat, Nat.mod_eq_of_lt hhigh, Nat.mod_eq_of_lt hlow, h]

/-! ## Code units -/

/-- Up to three bytes, a code unit is read like a code point. -/
theorem litReadCodeUnitFromCesu8_eq {c : List Byte} (hc : Sequence 0x90 c) (hlen : c.length ≤ 3) (r : List Byte) :
    litReadCodeUnitFromCesu8 (c ++ r) = (litReadCodePointFromUtf8 (c ++ r)).map fun p => (p.1, p.2.setWidth 16) := by
  cases hc with
  | @one a ha =>
    obtain ⟨h1, -⟩ := lead_one a ha
    simp only [List.singleton_append, litReadCodeUnitFromCesu8, litReadCodePointFromUtf8, if_pos h1, Option.map_some]
    rw [BitVec.setWidth_setWidth_of_le _ (by decide)]
  | @two a b ha1 ha2 hb =>
    obtain ⟨h1, h2⟩ := lead_two a ⟨ha1, ha2⟩
    simp only [List.cons_append, litReadCodeUnitFromCesu8, litReadCodePointFromUtf8, if_neg h1, if_pos h2,
      litReadCodeUnitFromCesu8.extra, litReadCodePointFromUtf8.extra]
    split <;> rfl
  | @three a b d ha1 ha2 hb hd he =>
    obtain ⟨h1, h2, h3⟩ := lead_three a ⟨ha1, ha2⟩
    simp only [List.cons_append, litReadCodeUnitFromCesu8, litReadCodePointFromUtf8, if_neg h1, if_neg h2, if_pos h3,
      litReadCodeUnitFromCesu8.extra, litReadCodePointFromUtf8.extra]
    split <;> rfl
  | four => simp at hlen

theorem litReadCodeUnitFromCesu8_append (u : CodeUnit) (r : List Byte) :
    litReadCodeUnitFromCesu8 (encode u.toNat ++ r) = some ((encode u.toNat).length, u) := by
  have hseq : Sequence 0x90 (encode u.toNat) := (unitPoint u).sequence
  have hlt := u.isLt
  have hlen : (encode u.toNat).length ≤ 3 := by
    unfold encode
    split
    · simp
    · split
      · simp
      · simp
  obtain ⟨cp, hread, hcp⟩ := litReadCodePointFromUtf8_append (hseq.mono (by decide)) r
  have hval := (unitPoint u).value_encode
  rw [unitPoint_encode] at hval
  rw [litReadCodeUnitFromCesu8_eq hseq hlen, hread, Option.map_some]
  have hcu : cp.setWidth 16 = u := by
    apply BitVec.eq_of_toNat_eq
    rw [BitVec.toNat_setWidth, hcp, hval]
    exact Nat.mod_eq_of_lt hlt
  rw [hcu]

theorem litIsHighSurrogate_iff (c : CodeUnit) : litIsHighSurrogate c = true ↔ IsHighUnit c := by
  simp only [litIsHighSurrogate, Bool.and_eq_true, decide_eq_true_eq, BitVec.le_def]
  rfl

theorem litIsLowSurrogate_iff (c : CodeUnit) : litIsLowSurrogate c = true ↔ IsLowUnit c := by
  simp only [litIsLowSurrogate, Bool.and_eq_true, decide_eq_true_eq, BitVec.le_def]
  rfl

/-! ## Digits -/

theorem litCharIsDecimalDigit_iff (c : Byte) : litCharIsDecimalDigit c = true ↔ Ecma404.IsDigit c := by
  rw [litCharIsDecimalDigit, Bool.and_eq_true, decide_eq_true_eq, decide_eq_true_eq, ge_toNat (by decide),
    le_toNat (by decide)]
  rfl

theorem hexDigit_eq (c : Byte) :
    Ecma404.hexDigit c = if litCharIsHexDigit c then some (litCharHexToInt c) else none := by
  have key : ∀ c : Byte, Ecma404.hexDigit c = if litCharIsHexDigit c then some (litCharHexToInt c) else none := by
    decide +kernel
  exact key c

theorem hexLookupLoop_cons (value : Nat) (ch : Byte) (buf : List Byte) :
    hexLookupLoop value (ch :: buf) = (Ecma404.hexDigit ch).bind fun d => hexLookupLoop (value * 16 + d) buf := by
  rw [hexDigit_eq, hexLookupLoop]
  split
  · rfl
  · rfl

end Lit
end JJS
