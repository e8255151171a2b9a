import JJS.Lib.Utf8

/-!
# JJS.Lit.Utf8

The UTF-8 routines of `lit-strings.c`: the validator `lit_is_valid_utf8_string`, the decoder
`lit_read_code_point_from_utf8` and the encoder `lit_code_point_to_utf8`.

The validator rejects an overlong sequence of four bytes only when the byte after `0xF0` is at most
`0x80`, so it takes `Utf8.Sequence 0x81` for a character where the encodings are `Utf8.Sequence 0x90`.
Results: the strings it accepts are the ones that split into such characters, in strict mode
without a surrogate pair (`litIsValidUtf8String_iff`), and it is exact just on the strings that do
not contain an overlong character in that split (`utf8_exact_iff`).
-/

namespace JJS
namespace Lit

open Utf8

abbrev CodePoint := BitVec 32

/-- `idx + 3 <= end`, and the three bytes begin like a low surrogate. -/
def startsWithLowSurrogate : List Byte → Bool
  | a :: b :: _ :: _ => a == 0xed#8 && decide (0xb0#8 ≤ b) && decide (b ≤ 0xbf#8)
  | _ => false

/-- `(byte & LIT_UTF8_EXTRA_BYTE_MASK) == LIT_UTF8_EXTRA_BYTE_MARKER`. -/
def isExtraByte (b : Byte) : Bool := b &&& 0xc0#8 == 0x80#8

/-- `lit_is_valid_utf8_string`. -/
def litIsValidUtf8String (isStrict : Bool) : List Byte → Bool
  | [] => true
  | first :: rest =>
    if first < 0x80#8 then litIsValidUtf8String isStrict rest
    else if first < 0xc2#8 then false
    else
      match rest with
      | [] => false
      | second :: rest =>
        if !isExtraByte second then false
        else if first < 0xe0#8 then litIsValidUtf8String isStrict rest
        else
          match rest with
          | [] => false
          | third :: rest =>
            if !isExtraByte third then false
            else if first < 0xf0#8 then
              if first = 0xe0#8 ∧ second &&& 0xe0#8 = 0x80#8 then false
              else if isStrict ∧ first = 0xed#8 ∧ 0xa0#8 ≤ second ∧ second ≤ 0xaf#8 ∧
                startsWithLowSurrogate rest then false
              else litIsValidUtf8String isStrict rest
            else
              match rest with
              | [] => false
              | fourth :: rest =>
                if 0xf4#8 < first ∨ (first = 0xf0#8 ∧ second ≤ 0x80#8) ∨ (first = 0xf4#8 ∧ 0x8f#8 < second) ∨
                  !isExtraByte fourth then false
                else litIsValidUtf8String isStrict rest

/-- `ret = (ret << 6) | (byte & 0x3f)`. -/
def addExtraByte (ret : CodePoint) (b : Byte) : CodePoint := (ret <<< 6) ||| (b &&& 0x3f#8).setWidth 32

/-- `lit_read_code_point_from_utf8`: the number of bytes and the code point. The null case is a
failed assertion; the one on `buf_size` guards the reads of the loop. -/
def litReadCodePointFromUtf8 : List Byte → Option (Nat × CodePoint)
  | [] => none
  | c :: rest =>
    if c &&& 0x80#8 = 0#8 then some (1, (c &&& 0x7f#8).setWidth 32)
    else if c &&& 0xe0#8 = 0xc0#8 then extra 2 ((c &&& 0x1f#8).setWidth 32) rest
    else if c &&& 0xf0#8 = 0xe0#8 then extra 3 ((c &&& 0x0f#8).setWidth 32) rest
    else if c &&& 0xf8#8 = 0xf0#8 then extra 4 ((c &&& 0x07#8).setWidth 32) rest
    else none
where
  /-- The loop over the extra bytes. -/
  extra (bytesCount : Nat) (ret : CodePoint) (rest : List Byte) : Option (Nat × CodePoint) :=
    if bytesCount ≤ rest.length + 1 then some (bytesCount, (rest.take (bytesCount - 1)).foldl addExtraByte ret)
    else none

/-- The low six bits of a code point, as an extra byte. -/
def extraByte (bits : CodePoint) : Byte := 0x80#8 ||| (bits &&& 0x3f#32).setWidth 8

/-- `lit_code_point_to_utf8`. The null case is a failed assertion. -/
def litCodePointToUtf8 (codePoint : CodePoint) : Option (List Byte) :=
  if codePoint ≤ 0x7f#32 then some [codePoint.setWidth 8]
  else if codePoint ≤ 0x7ff#32 then
    lead 0xc0#8 0x1f#32 (codePoint >>> 6) [extraByte codePoint]
  else if codePoint ≤ 0xffff#32 then
    lead 0xe0#8 0x0f#32 (codePoint >>> 12) [extraByte (codePoint >>> 6), extraByte codePoint]
  else if codePoint ≤ 0x10ffff#32 then
    lead 0xf0#8 0x07#32 (codePoint >>> 18)
      [extraByte (codePoint >>> 12), extraByte (codePoint >>> 6), extraByte codePoint]
  else none
where
  /-- The first byte; the assertion says that the remaining bits fit in it. -/
  lead (marker : Byte) (mask bits : CodePoint) (extra : List Byte) : Option (List Byte) :=
    if ((bits &&& mask).setWidth 8 : Byte).setWidth 32 = bits then
      some ((marker ||| (bits &&& mask).setWidth 8) :: extra)
    else none

/-- Decode a whole string, one code point after the other. -/
def decodeAll : Nat → List Byte → Option (List CodePoint)
  | _, [] => some []
  | 0, _ :: _ => none
  | fuel + 1, b :: bs => do
    let r ← litReadCodePointFromUtf8 (b :: bs)
    let rest ← decodeAll fuel ((b :: bs).drop r.1)
    some (r.2 :: rest)

/-- Encode code points one after the other. -/
def encodeAll : List CodePoint → Option (List Byte)
  | [] => some []
  | c :: cs => do
    let bytes ← litCodePointToUtf8 c
    let rest ← encodeAll cs
    some (bytes ++ rest)

/-! ## Bytes as numbers -/

/-- What the masks of the source say about a byte. -/
theorem byte_masks : ∀ b : Byte,
    isExtraByte b = decide (0x80 ≤ b.toNat ∧ b.toNat ≤ 0xBF) ∧
    (0x80 ≤ b.toNat ∧ b.toNat ≤ 0xBF → (b &&& 0xe0#8 = 0x80#8 ↔ b.toNat < 0xA0)) ∧
    (b.toNat < 0x80 → b &&& 0x80#8 = 0#8 ∧ b.toNat % 2 ^ 7 = b.toNat) ∧
    (0xC2 ≤ b.toNat ∧ b.toNat < 0xE0 → b &&& 0x80#8 ≠ 0#8 ∧ b &&& 0xe0#8 = 0xc0#8) ∧
    (0xE0 ≤ b.toNat ∧ b.toNat < 0xF0 → b &&& 0x80#8 ≠ 0#8 ∧ b &&& 0xe0#8 ≠ 0xc0#8 ∧ b &&& 0xf0#8 = 0xe0#8) ∧
    (0xF0 ≤ b.toNat ∧ b.toNat ≤ 0xF4 →
      b &&& 0x80#8 ≠ 0#8 ∧ b &&& 0xe0#8 ≠ 0xc0#8 ∧ b &&& 0xf0#8 ≠ 0xe0#8 ∧ b &&& 0xf8#8 = 0xf0#8) := by
  decide +kernel

theorem isExtraByte_iff (b : Byte) : isExtraByte b = true ↔ Cont b := by
  rw [(byte_masks b).1, decide_eq_true_eq]
  rfl

theorem overlong_three_iff (b : Byte) (h : Cont b) : b &&& 0xe0#8 = 0x80#8 ↔ b.toNat < 0xA0 :=
  (byte_masks b).2.1 h

/-- A marker with `k` zero bits at its end, and bits that fit in them. -/
theorem marker_or {marker x : Byte} {k : Nat} (hm : marker.toNat % 2 ^ k = 0) (hx : x.toNat < 2 ^ k) :
    marker ||| x = BitVec.ofNat 8 (marker.toNat + x.toNat) := by
  have hsplit : 2 ^ k * (marker.toNat / 2 ^ k) = marker.toNat := Nat.mul_div_cancel' (Nat.dvd_of_mod_eq_zero hm)
  have hor : marker.toNat ||| x.toNat = marker.toNat + x.toNat := by
    rw [← hsplit]
    exact (Nat.two_pow_add_eq_or_of_lt hx _).symm
  apply BitVec.eq_of_toNat_eq
  have hlt : marker.toNat + x.toNat < 2 ^ 8 := by
    rw [← hor]
    exact Nat.or_lt_two_pow marker.isLt x.isLt
  rw [BitVec.toNat_or, hor, BitVec.toNat_ofNat, Nat.mod_eq_of_lt hlt]

theorem lt_toNat {a : Byte} {n : Nat} (hn : n < 256) : a < BitVec.ofNat 8 n ↔ a.toNat < n := by
  rw [BitVec.lt_def, toNat_ofNat hn]

theorem gt_toNat {a : Byte} {n : Nat} (hn : n < 256) : BitVec.ofNat 8 n < a ↔ n < a.toNat := by
  rw [BitVec.lt_def, toNat_ofNat hn]

theorem le_toNat {a : Byte} {n : Nat} (hn : n < 256) : a ≤ BitVec.ofNat 8 n ↔ a.toNat ≤ n := by
  rw [BitVec.le_def, toNat_ofNat hn]

theorem ge_toNat {a : Byte} {n : Nat} (hn : n < 256) : BitVec.ofNat 8 n ≤ a ↔ n ≤ a.toNat := by
  rw [BitVec.le_def, toNat_ofNat hn]

theorem eq_toNat {a : Byte} {n : Nat} (hn : n < 256) : a = BitVec.ofNat 8 n ↔ a.toNat = n := by
  rw [← BitVec.toNat_inj, toNat_ofNat hn]

/-! ## What the validator accepts -/

/-- A high surrogate as the validator recognises it. -/
def HighSurrogate : List Byte → Prop
  | [a, b, _] => a.toNat = 0xED ∧ 0xA0 ≤ b.toNat ∧ b.toNat ≤ 0xAF
  | _ => False

/-- The validator takes one character off the string. -/
theorem litIsValidUtf8String_append {isStrict : Bool} {c r : List Byte} (hc : Sequence 0x81 c) :
    litIsValidUtf8String isStrict (c ++ r) = true ↔
      ¬ (isStrict ∧ HighSurrogate c ∧ startsWithLowSurrogate r) ∧ litIsValidUtf8String isStrict r = true := by
  cases hc with
  | one ha =>
    simp only [List.singleton_append, HighSurrogate, false_and, and_false, not_false_eq_true, true_and]
    rw [litIsValidUtf8String.eq_def]
    simp only []
    rw [if_pos ((lt_toNat (by decide)).mpr ha)]
  | two h1 h2 hb =>
    simp only [List.cons_append, List.nil_append, HighSurrogate, false_and, and_false, not_false_eq_true, true_and]
    rw [litIsValidUtf8String.eq_def]
    simp only []
    rw [if_neg (by rw [lt_toNat (by decide)]; omega), if_neg (by rw [lt_toNat (by decide)]; omega)]
    simp only [(isExtraByte_iff _).mpr hb, Bool.not_true, Bool.false_eq_true, if_false]
    rw [if_pos ((lt_toNat (by decide)).mpr h2)]
  | @three a b d h1 h2 hb hd he =>
    simp only [List.cons_append, List.nil_append, HighSurrogate]
    rw [litIsValidUtf8String.eq_def]
    simp only []
    rw [if_neg (by rw [lt_toNat (by decide)]; omega), if_neg (by rw [lt_toNat (by decide)]; omega)]
    simp only [(isExtraByte_iff _).mpr hb, (isExtraByte_iff _).mpr hd, Bool.not_true, Bool.false_eq_true, if_false]
    rw [if_neg (by rw [lt_toNat (by decide)]; omega), if_pos ((lt_toNat (by decide)).mpr h2), if_neg]
    · rw [← eq_toNat (by decide : 0xED < 256), ← ge_toNat (by decide : 0xA0 < 256),
        ← le_toNat (by decide : 0xAF < 256)]
      by_cases hsur : isStrict ∧ a = 0xed#8 ∧ 0xa0#8 ≤ b ∧ b ≤ 0xaf#8 ∧ startsWithLowSurrogate r
      · rw [if_pos hsur]
        refine iff_of_false Bool.false_ne_true (fun hno => hno.1 ?_)
        exact ⟨hsur.1, ⟨hsur.2.1, hsur.2.2.1, hsur.2.2.2.1⟩, hsur.2.2.2.2⟩
      · rw [if_neg hsur]
        simp only [iff_and_self]
        intro _ hyes
        exact hsur ⟨hyes.1, hyes.2.1.1, hyes.2.1.2.1, hyes.2.1.2.2, hyes.2.2⟩
    · rw [eq_toNat (by decide), overlong_three_iff _ hb]
      omega
  | @four a b d e h1 h2 hb hd he h0 h4 =>
    simp only [List.cons_append, List.nil_append, HighSurrogate, false_and, and_false, not_false_eq_true, true_and]
    rw [litIsValidUtf8String.eq_def]
    simp only []
    rw [if_neg (by rw [lt_toNat (by decide)]; omega), if_neg (by rw [lt_toNat (by decide)]; omega)]
    simp only [(isExtraByte_iff _).mpr hb, (isExtraByte_iff _).mpr hd, (isExtraByte_iff _).mpr he, Bool.not_true,
      Bool.false_eq_true, if_false, or_false]
    rw [if_neg (by rw [lt_toNat (by decide)]; omega), if_neg (by rw [lt_toNat (by decide)]; omega), if_neg]
    rw [gt_toNat (by decide), eq_toNat (by decide), eq_toNat (by decide), le_toNat (by decide), gt_toNat (by decide)]
    omega

/-- An accepted string that is not empty begins with a character. -/
theorem exists_sequence_of_valid {isStrict : Bool} {s : List Byte} (hs : s ≠ [])
    (h : litIsValidUtf8String isStrict s = true) : ∃ c r, s = c ++ r ∧ Sequence 0x81 c := by
  cases s with
  | nil => exact absurd rfl hs
  | cons first rest =>
    unfold litIsValidUtf8String at h
    split at h
    · rename_i h1
      exact ⟨[first], rest, rfl, .one ((lt_toNat (by decide)).mp h1)⟩
    · rename_i h1
      rw [lt_toNat (by decide)] at h1
      split at h
      · cases h
      · rename_i h2
        rw [lt_toNat (by decide)] at h2
        split at h
        · cases h
        · rename_i _ second rest
          split at h
          · cases h
          · rename_i hsec
            have hb : Cont second := (isExtraByte_iff _).mp (by simpa using hsec)
            split at h
            · rename_i h3
              exact ⟨[first, second], rest, rfl, .two (by omega) ((lt_toNat (by decide)).mp h3) hb⟩
            · rename_i h3
              rw [lt_toNat (by decide)] at h3
              split at h
              · cases h
              · rename_i _ third rest
                split at h
                · cases h
                · rename_i hthird
                  have hc : Cont third := (isExtraByte_iff _).mp (by simpa using hthird)
                  split at h
                  · rename_i h4
                    rw [lt_toNat (by decide)] at h4
                    split at h
                    · cases h
                    · rename_i h5
                      rw [eq_toNat (by decide), overlong_three_iff _ hb] at h5
                      exact ⟨[first, second, third], rest, rfl, .three (by omega) h4 hb hc (by omega)⟩
                  · rename_i h4
                    rw [lt_toNat (by decide)] at h4
                    split at h
                    · cases h
                    · rename_i _ fourth rest
                      split at h
                      · cases h
                      · rename_i h5
                        rw [gt_toNat (by decide), eq_toNat (by decide), eq_toNat (by decide), le_toNat (by decide),
                          gt_toNat (by decide)] at h5
                        simp only [not_or] at h5
                        obtain ⟨h6, h7, h8, h9⟩ := h5
                        have hd : Cont fourth := (isExtraByte_iff _).mp (by simpa using h9)
                        exact ⟨[first, second, third, fourth], rest, rfl,
                          .four (by omega) (by omega) hb hc hd (by omega) (by omega)⟩

/-- A low surrogate. -/
def LowSurrogate (c : List Byte) : Prop := 0xDC00 ≤ value c ∧ value c ≤ 0xDFFF

/-- A string begins like a low surrogate just when its first character is one. -/
theorem startsWithLowSurrogate_iff {c r : List Byte} (hc : Sequence 0x81 c) :
    startsWithLowSurrogate (c ++ r) = true ↔ c.length = 3 ∧ LowSurrogate c := by
  cases hc with
  | @one a ha =>
    refine iff_of_false ?_ (by simp)
    cases r with
    | nil => simp [startsWithLowSurrogate]
    | cons b r =>
      cases r with
      | nil => simp [startsWithLowSurrogate]
      | cons d r =>
        simp only [List.cons_append, List.nil_append, startsWithLowSurrogate, Bool.and_eq_true, beq_iff_eq]
        rw [eq_toNat (by decide)]
        omega
  | @two a b h1 h2 hb =>
    refine iff_of_false ?_ (by simp)
    cases r with
    | nil => simp [startsWithLowSurrogate]
    | cons d r =>
      simp only [List.cons_append, List.nil_append, startsWithLowSurrogate, Bool.and_eq_true, beq_iff_eq]
      rw [eq_toNat (by decide)]
      omega
  | @three a b d h1 h2 hb hd he =>
    obtain ⟨hb1, hb2⟩ := hb
    obtain ⟨hd1, hd2⟩ := hd
    simp only [List.cons_append, List.nil_append, startsWithLowSurrogate, Bool.and_eq_true, beq_iff_eq,
      decide_eq_true_eq, LowSurrogate, value, List.length_cons, List.length_nil, true_and]
    rw [eq_toNat (by decide), ge_toNat (by decide), le_toNat (by decide)]
    omega
  | @four a b d e h1 h2 hb hd he h0 h4 =>
    refine iff_of_false ?_ (by simp)
    simp only [List.cons_append, List.nil_append, startsWithLowSurrogate, Bool.and_eq_true, beq_iff_eq]
    rw [eq_toNat (by decide)]
    omega

theorem highSurrogate_iff {c : List Byte} (hc : Sequence 0x81 c) :
    HighSurrogate c ↔ c.length = 3 ∧ 0xD800 ≤ value c ∧ value c ≤ 0xDBFF := by
  cases hc with
  | one ha => simp [HighSurrogate]
  | two h1 h2 hb => simp [HighSurrogate]
  | three h1 h2 hb hd he =>
    obtain ⟨hb1, hb2⟩ := hb
    obtain ⟨hd1, hd2⟩ := hd
    simp only [HighSurrogate, value, List.length_cons, List.length_nil, true_and]
    omega
  | four h1 h2 hb hd he h0 h4 => simp [HighSurrogate]

/-- A character may follow another one, unless the two are a surrogate pair. -/
def NotPair (c d : List Byte) : Prop :=
  ¬ ((c.length = 3 ∧ 0xD800 ≤ value c ∧ value c ≤ 0xDBFF) ∧ d.length = 3 ∧ LowSurrogate d)

/-- The strings the validator accepts. -/
theorem litIsValidUtf8String_iff {isStrict : Bool} {s : List Byte} :
    litIsValidUtf8String isStrict s = true ↔
      ∃ cs : List (List Byte), s = cs.flatten ∧ (∀ c ∈ cs, Sequence 0x81 c) ∧ (isStrict → cs.IsChain NotPair) := by
  constructor
  · intro h
    -- on the length of what is left of the string
    induction hn : s.length using Nat.strongRecOn generalizing s with
    | ind n ih =>
      subst hn
      by_cases hs : s = []
      · exact ⟨[], by simp [hs], by simp, fun _ => .nil⟩
      · obtain ⟨c, r, rfl, hc⟩ := exists_sequence_of_valid hs h
        obtain ⟨hpair, hr⟩ := (litIsValidUtf8String_append hc).mp h
        have hlt : r.length < (c ++ r).length := by
          have := List.length_pos_iff.mpr hc.ne_nil
          simp only [List.length_append]
          omega
        obtain ⟨cs, rfl, hcs, hchain⟩ := ih r.length hlt hr rfl
        refine ⟨c :: cs, by simp, by simpa using ⟨hc, hcs⟩, fun hstrict => ?_⟩
        cases cs with
        | nil => exact .singleton c
        | cons d ds =>
          refine .cons_cons ?_ (hchain hstrict)
          rw [List.flatten_cons, startsWithLowSurrogate_iff (hcs d (by simp)), highSurrogate_iff hc] at hpair
          exact fun hp => hpair ⟨hstrict, hp.1, hp.2⟩
  · rintro ⟨cs, rfl, hcs, hchain⟩
    induction cs with
    | nil => simp [litIsValidUtf8String]
    | cons c cs ih =>
      rw [List.flatten_cons, litIsValidUtf8String_append (hcs c (by simp))]
      refine ⟨?_, ih (fun x hx => hcs x (by simp [hx])) (fun h => (hchain h).tail)⟩
      rintro ⟨hstrict, hhigh, hlow⟩
      cases cs with
      | nil => simp [startsWithLowSurrogate] at hlow
      | cons d ds =>
        rw [List.flatten_cons, startsWithLowSurrogate_iff (hcs d (by simp))] at hlow
        rw [highSurrogate_iff (hcs c (by simp))] at hhigh
        have := hchain hstrict
        rw [List.isChain_cons_cons] at this
        exact this.1 ⟨hhigh, hlow⟩

/-! ## Decoding and encoding -/

theorem toNat_and_mask (b : Byte) {m : Byte} (k : Nat) (hm : m.toNat = 2 ^ k - 1) :
    ((b &&& m).setWidth 32).toNat = b.toNat % 2 ^ k := by
  have hb := b.isLt
  have hle := Nat.mod_le b.toNat (2 ^ k)
  rw [BitVec.toNat_setWidth, BitVec.toNat_and, hm, Nat.and_two_pow_sub_one_eq_mod, Nat.mod_eq_of_lt (by omega)]

theorem toNat_addExtraByte {ret : CodePoint} (hr : ret.toNat < 2 ^ 26) (b : Byte) :
    (addExtraByte ret b).toNat = ret.toNat * 64 + b.toNat % 64 := by
  have hlow : ((b &&& 0x3f#8).setWidth 32).toNat = b.toNat % 64 := toNat_and_mask b 6 rfl
  have hlt : b.toNat % 64 < 2 ^ 6 := Nat.mod_lt _ (by decide)
  rw [addExtraByte, BitVec.toNat_or, hlow, BitVec.toNat_shiftLeft, Nat.shiftLeft_eq, Nat.mod_eq_of_lt (by omega),
    ← Nat.shiftLeft_eq, ← Nat.shiftLeft_add_eq_or_of_lt hlt, Nat.shiftLeft_eq]

theorem lead_one (c : Byte) (h : c.toNat < 0x80) : c &&& 0x80#8 = 0#8 ∧ c.toNat % 2 ^ 7 = c.toNat :=
  (byte_masks c).2.2.1 h

theorem lead_two (c : Byte) (h : 0xC2 ≤ c.toNat ∧ c.toNat < 0xE0) : c &&& 0x80#8 ≠ 0#8 ∧ c &&& 0xe0#8 = 0xc0#8 :=
  (byte_masks c).2.2.2.1 h

theorem lead_three (c : Byte) (h : 0xE0 ≤ c.toNat ∧ c.toNat < 0xF0) :
    c &&& 0x80#8 ≠ 0#8 ∧ c &&& 0xe0#8 ≠ 0xc0#8 ∧ c &&& 0xf0#8 = 0xe0#8 :=
  (byte_masks c).2.2.2.2.1 h

theorem lead_four (c : Byte) (h : 0xF0 ≤ c.toNat ∧ c.toNat ≤ 0xF4) :
    c &&& 0x80#8 ≠ 0#8 ∧ c &&& 0xe0#8 ≠ 0xc0#8 ∧ c &&& 0xf0#8 ≠ 0xe0#8 ∧ c &&& 0xf8#8 = 0xf0#8 :=
  (byte_masks c).2.2.2.2.2 h

/-- The decoder reads one character and stays inside it. -/
theorem litReadCodePointFromUtf8_append {c : List Byte} (hc : Sequence 0x81 c) (r : List Byte) :
    ∃ cp, litReadCodePointFromUtf8 (c ++ r) = some (c.length, cp) ∧ cp.toNat = value c := by
  cases hc with
  | @one a ha =>
    obtain ⟨h1, h2⟩ := lead_one a ha
    refine ⟨(a &&& 0x7f#8).setWidth 32, ?_, ?_⟩
    · simp [litReadCodePointFromUtf8, h1]
    · rw [toNat_and_mask a 7 rfl, h2, value]
  | @two a b ha1 ha2 hb =>
    obtain ⟨h1, h2⟩ := lead_two a ⟨ha1, ha2⟩
    have h0 : ((a &&& 0x1f#8).setWidth 32 : CodePoint).toNat = a.toNat % 32 := toNat_and_mask a 5 rfl
    refine ⟨addExtraByte ((a &&& 0x1f#8).setWidth 32) b, ?_, ?_⟩
    · simp [litReadCodePointFromUtf8, litReadCodePointFromUtf8.extra, h1, h2]
    · rw [toNat_addExtraByte (by omega), h0, value]
  | @three a b d ha1 ha2 hb hd he =>
    obtain ⟨h1, h2, h3⟩ := lead_three a ⟨ha1, ha2⟩
    have h0 : ((a &&& 0x0f#8).setWidth 32 : CodePoint).toNat = a.toNat % 16 := toNat_and_mask a 4 rfl
    have e1 := toNat_addExtraByte (show ((a &&& 0x0f#8).setWidth 32 : CodePoint).toNat < 2 ^ 26 by omega) b
    refine ⟨addExtraByte (addExtraByte ((a &&& 0x0f#8).setWidth 32) b) d, ?_, ?_⟩
    · simp [litReadCodePointFromUtf8, litReadCodePointFromUtf8.extra, h1, h2, h3]
    · rw [toNat_addExtraByte (by omega), e1, h0, value]
  | @four a b d e ha1 ha2 hb hd he h0' h4' =>
    obtain ⟨h1, h2, h3, h4⟩ := lead_four a ⟨ha1, ha2⟩
    have h0 : ((a &&& 0x07#8).setWidth 32 : CodePoint).toNat = a.toNat % 8 := toNat_and_mask a 3 rfl
    have e1 := toNat_addExtraByte (show ((a &&& 0x07#8).setWidth 32 : CodePoint).toNat < 2 ^ 26 by omega) b
    have e2 := toNat_addExtraByte (show (addExtraByte ((a &&& 0x07#8).setWidth 32) b).toNat < 2 ^ 26 by omega) d
    refine ⟨addExtraByte (addExtraByte (addExtraByte ((a &&& 0x07#8).setWidth 32) b) d) e, ?_, ?_⟩
    · simp [litReadCodePointFromUtf8, litReadCodePointFromUtf8.extra, h1, h2, h3, h4]
    · rw [toNat_addExtraByte (by omega), e2, e1, h0, value]

theorem extraByte_eq (bits : CodePoint) : extraByte bits = BitVec.ofNat 8 (0x80 + bits.toNat % 0x40) := by
  have hval : ((bits &&& 0x3f#32).setWidth 8 : Byte).toNat = bits.toNat % 0x40 := by
    have hm : (0x3f#32 : CodePoint).toNat = 2 ^ 6 - 1 := rfl
    rw [BitVec.toNat_setWidth, BitVec.toNat_and, hm, Nat.and_two_pow_sub_one_eq_mod]
    omega
  rw [extraByte, marker_or (k := 6) rfl (by rw [hval]; omega), hval]
  rfl

/-- The first byte of an encoding, when the bits that are left fit in it. -/
theorem lead_eq {marker : Byte} {mask bits : CodePoint} {extra : List Byte} {k : Nat} (hk : k ≤ 8)
    (hmask : mask.toNat = 2 ^ k - 1) (hbits : bits.toNat < 2 ^ k) (hmarker : marker.toNat % 2 ^ k = 0) :
    litCodePointToUtf8.lead marker mask bits extra = some (BitVec.ofNat 8 (marker.toNat + bits.toNat) :: extra) := by
  have h256 : 2 ^ k ≤ 2 ^ 8 := Nat.pow_le_pow_right (by decide) hk
  have hval : ((bits &&& mask).setWidth 8 : Byte).toNat = bits.toNat := by
    rw [BitVec.toNat_setWidth, BitVec.toNat_and, hmask, Nat.and_two_pow_sub_one_eq_mod, Nat.mod_eq_of_lt hbits,
      Nat.mod_eq_of_lt (by omega)]
  rw [litCodePointToUtf8.lead, if_pos, marker_or hmarker (by rw [hval]; exact hbits), hval]
  apply BitVec.eq_of_toNat_eq
  rw [BitVec.toNat_setWidth, hval, Nat.mod_eq_of_lt bits.isLt]

/-- The encoder computes the shortest form. -/
theorem litCodePointToUtf8_eq {cp : CodePoint} (h : cp.toNat ≤ 0x10FFFF) :
    litCodePointToUtf8 cp = some (encode cp.toNat) := by
  have shift : ∀ k, (cp >>> k).toNat = cp.toNat / 2 ^ k := by
    intro k
    rw [BitVec.toNat_ushiftRight, Nat.shiftRight_eq_div_pow]
  have h6 : (cp >>> 6).toNat = cp.toNat / 0x40 := shift 6
  have h12 : (cp >>> 12).toNat = cp.toNat / 0x1000 := shift 12
  have h18 : (cp >>> 18).toNat = cp.toNat / 0x40000 := shift 18
  have hle : ∀ n, n < 2 ^ 32 → (cp ≤ BitVec.ofNat 32 n ↔ cp.toNat ≤ n) := by
    intro n hn
    rw [BitVec.le_def, BitVec.toNat_ofNat, Nat.mod_eq_of_lt hn]
  rw [litCodePointToUtf8, encode]
  by_cases c1 : cp.toNat < 0x80
  · rw [if_pos ((hle 0x7f (by decide)).mpr (by omega)), if_pos c1]
    rfl
  · rw [if_neg (fun hc => c1 (by have := (hle 0x7f (by decide)).mp hc; omega)), if_neg c1]
    by_cases c2 : cp.toNat < 0x800
    · rw [if_pos ((hle 0x7ff (by decide)).mpr (by omega)), if_pos c2, extraByte_eq,
        lead_eq (k := 5) (by decide) rfl (by omega) rfl, h6]
      rfl
    · rw [if_neg (fun hc => c2 (by have := (hle 0x7ff (by decide)).mp hc; omega)), if_neg c2]
      by_cases c3 : cp.toNat < 0x10000
      · rw [if_pos ((hle 0xffff (by decide)).mpr (by omega)), if_pos c3, extraByte_eq, extraByte_eq,
          lead_eq (k := 4) (by decide) rfl (by omega) rfl, h6, h12]
        rfl
      · rw [if_neg (fun hc => c3 (by have := (hle 0xffff (by decide)).mp hc; omega)), if_neg c3,
          if_pos ((hle 0x10ffff (by decide)).mpr h), extraByte_eq, extraByte_eq, extraByte_eq,
          lead_eq (k := 3) (by decide) rfl (by omega) rfl, h6, h12, h18]
        rfl

/-- A string of proper characters is decoded, and encoded again to the same bytes. -/
theorem decode_encode {cs : List (List Byte)} (hcs : ∀ c ∈ cs, Sequence 0x90 c) (fuel : Nat)
    (hf : cs.flatten.length ≤ fuel) :
    ∃ cps, decodeAll fuel cs.flatten = some cps ∧ encodeAll cps = some cs.flatten := by
  induction cs generalizing fuel with
  | nil => exact ⟨[], by cases fuel <;> rfl, rfl⟩
  | cons c cs ih =>
    have hc := hcs c (by simp)
    obtain ⟨cp, hread, hval⟩ := litReadCodePointFromUtf8_append (hc.mono (by decide)) cs.flatten
    obtain ⟨hmax, henc⟩ := hc.encode_value
    have hpos := List.length_pos_iff.mpr hc.ne_nil
    rw [List.flatten_cons, List.length_append] at hf
    cases fuel with
    | zero => omega
    | succ fuel =>
      obtain ⟨cps, hd, he⟩ := ih (fun x hx => hcs x (by simp [hx])) fuel (by omega)
      refine ⟨cp :: cps, ?_, ?_⟩
      · rw [List.flatten_cons]
        obtain ⟨a, t, hat⟩ := List.exists_cons_of_ne_nil (show c ++ cs.flatten ≠ [] by simp [hc.ne_nil])
        rw [hat] at hread ⊢
        rw [decodeAll, hread, Option.bind_eq_bind, Option.bind_some, ← hat, List.drop_left, hd]
        rfl
      · rw [encodeAll, litCodePointToUtf8_eq (by omega), hval, henc, he]
        rfl

/-! ## Exactness -/

/-- A four-byte sequence for a code point that three bytes can hold, as the validator lets it in. -/
def Overlong : List Byte → Prop
  | [a, b, c, d] => a.toNat = 0xF0 ∧ 0x81 ≤ b.toNat ∧ b.toNat ≤ 0x8F ∧ Cont c ∧ Cont d
  | _ => False

/-- The string is a concatenation of encodings and overlong sequences, with at least one of the latter. -/
def ContainsOverlong (s : List Byte) : Prop :=
  ∃ cs : List (List Byte), s = cs.flatten ∧ (∀ c ∈ cs, Sequence 0x90 c ∨ Overlong c) ∧ ∃ c ∈ cs, Overlong c

theorem sequence_of_overlong {c : List Byte} (h : Overlong c) : Sequence 0x81 c ∧ ¬ Sequence 0x90 c := by
  unfold Overlong at h
  split at h
  · obtain ⟨ha, hb1, hb2, hc, hd⟩ := h
    refine ⟨.four (by omega) (by omega) ⟨by omega, by omega⟩ hc hd (by omega) (by omega), ?_⟩
    intro hs
    cases hs with
    | four h1 h2 h3 h4 h5 h6 h7 =>
      have := h6 ha
      omega
  · exact h.elim

theorem sequence_or_overlong {c : List Byte} (h : Sequence 0x81 c) : Sequence 0x90 c ∨ Overlong c := by
  cases h with
  | one ha => exact Or.inl (.one ha)
  | two h1 h2 hb => exact Or.inl (.two h1 h2 hb)
  | three h1 h2 hb hc he => exact Or.inl (.three h1 h2 hb hc he)
  | @four a b c d h1 h2 hb hc hd h0 h4 =>
    by_cases hlong : a.toNat = 0xF0 ∧ b.toNat ≤ 0x8F
    · exact Or.inr ⟨hlong.1, h0 hlong.1, hlong.2, hc, hd⟩
    · exact Or.inl (.four h1 h2 hb hc hd (by omega) h4)

theorem notPair_iff (a b : Point) : NotPair a.encode b.encode ↔ ¬ (a.IsHigh ∧ b.IsLow) := by
  rw [NotPair, LowSurrogate, a.value_encode, b.value_encode, not_iff_not]
  constructor
  · intro h
    exact ⟨h.1.2, h.2.2⟩
  · intro h
    refine ⟨⟨Point.length_of_surrogate h.1.1 ?_, h.1⟩, Point.length_of_surrogate ?_ h.2.2, h.2⟩
    · have := h.1.2
      omega
    · have := h.2.1
      omega

/-- Validation is exact on a string: each mode accepts it just when it is well formed, and an accepted
string is decoded inside its bounds and encoded again to itself. -/
def ValidationExact (s : List Byte) : Prop :=
  (litIsValidUtf8String false s = true ↔ WellFormed s) ∧
  (litIsValidUtf8String true s = true ↔ WellFormedStrict s) ∧
  ((litIsValidUtf8String false s = true ∨ litIsValidUtf8String true s = true) →
    ∃ cps, decodeAll s.length s = some cps ∧ encodeAll cps = some s)

/-- Without an overlong sequence every character of an accepted string is an encoding. -/
theorem sequences_of_valid {isStrict : Bool} {s : List Byte} (h : ¬ ContainsOverlong s)
    (hv : litIsValidUtf8String isStrict s = true) :
    ∃ cs : List (List Byte), s = cs.flatten ∧ (∀ c ∈ cs, Sequence 0x90 c) ∧ (isStrict → cs.IsChain NotPair) := by
  obtain ⟨cs, rfl, hcs, hchain⟩ := litIsValidUtf8String_iff.mp hv
  refine ⟨cs, rfl, ?_, hchain⟩
  intro c hc
  rcases sequence_or_overlong (hcs c hc) with h90 | hlong
  · exact h90
  · exact absurd ⟨cs, rfl, fun x hx => sequence_or_overlong (hcs x hx), c, hc, hlong⟩ h

/-- The validator, the decoder and the encoder are exact on just the strings without an overlong
sequence of four bytes. -/
theorem utf8_exact_iff (s : List Byte) : ValidationExact s ↔ ¬ ContainsOverlong s := by
  constructor
  · intro hex hlong
    obtain ⟨cs, hs, hcs, c, hc, hco⟩ := hlong
    have h81 : ∀ x ∈ cs, Sequence 0x81 x := by
      intro x hx
      rcases hcs x hx with h90 | ho
      · exact h90.mono (by decide)
      · exact (sequence_of_overlong ho).1
    have hvalid : litIsValidUtf8String false s = true :=
      litIsValidUtf8String_iff.mpr ⟨cs, hs, h81, fun h => absurd h (by decide)⟩
    -- the split is unique, so a well-formed string has no overlong sequence in it
    obtain ⟨ds, hds, hd90⟩ := wellFormed_iff.mp (hex.1.mp hvalid)
    have heq : cs = ds := flatten_inj h81 (fun d hd => (hd90 d hd).mono (by decide)) (hs ▸ hds)
    exact (sequence_of_overlong hco).2 (hd90 c (heq ▸ hc))
  · intro hno
    refine ⟨⟨?_, ?_⟩, ⟨?_, ?_⟩, ?_⟩
    · intro hv
      obtain ⟨cs, hs, hcs, -⟩ := sequences_of_valid hno hv
      exact wellFormed_iff.mpr ⟨cs, hs, hcs⟩
    · intro hw
      obtain ⟨cs, hs, hcs⟩ := wellFormed_iff.mp hw
      exact litIsValidUtf8String_iff.mpr
        ⟨cs, hs, fun c hc => (hcs c hc).mono (by decide), fun h => absurd h (by decide)⟩
    · intro hv
      obtain ⟨cs, hs, hcs, hchain⟩ := sequences_of_valid hno hv
      obtain ⟨cps, rfl⟩ := exists_points hcs
      refine ⟨cps, hs, ?_⟩
      have := hchain rfl
      rw [List.isChain_map] at this
      exact this.imp fun a b hab => (notPair_iff a b).mp hab
    · intro hw
      obtain ⟨cps, hs, hchain⟩ := hw
      refine litIsValidUtf8String_iff.mpr ⟨_, hs, ?_, fun _ => ?_⟩
      · intro c hc
        obtain ⟨p, -, rfl⟩ := List.mem_map.mp hc
        exact p.sequence.mono (by decide)
      · rw [List.isChain_map]
        exact hchain.imp fun a b hab => (notPair_iff a b).mpr hab
    · intro hv
      obtain ⟨isStrict, hv'⟩ : ∃ isStrict, litIsValidUtf8String isStrict s = true := by
        rcases hv with h | h
        · exact ⟨false, h⟩
        · exact ⟨true, h⟩
      obtain ⟨cs, rfl, hcs, -⟩ := sequences_of_valid hno hv'
      exact decode_encode hcs _ (Nat.le_refl _)

/-- `F0 81 80 80` is accepted; it is the code point 0x1000 in four bytes instead of three, and is
encoded again as `E1 80 80`. -/
theorem utf8_not_exact :
    litIsValidUtf8String false [0xf0#8, 0x81#8, 0x80#8, 0x80#8] = true ∧
    (decodeAll 4 [0xf0#8, 0x81#8, 0x80#8, 0x80#8]).bind encodeAll = some [0xe1#8, 0x80#8, 0x80#8] ∧
    ¬ ValidationExact [0xf0#8, 0x81#8, 0x80#8, 0x80#8] := by
  have hvalid : litIsValidUtf8String false [0xf0#8, 0x81#8, 0x80#8, 0x80#8] = true := by decide
  have hcode : (decodeAll 4 [0xf0#8, 0x81#8, 0x80#8, 0x80#8]).bind encodeAll = some [0xe1#8, 0x80#8, 0x80#8] := by
    decide
  refine ⟨hvalid, hcode, fun hex => ?_⟩
  obtain ⟨cps, hd, he⟩ := hex.2.2 (Or.inl hvalid)
  have hd' : decodeAll 4 [0xf0#8, 0x81#8, 0x80#8, 0x80#8] = some cps := hd
  rw [hd', Option.bind_some, he] at hcode
  revert hcode
  decide

end Lit
end JJS
