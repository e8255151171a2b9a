import JJS.Builtin.Uri

/-!
# JJS.Builtin.UriDecode

What the decoder of URIs accepts, and what it returns: a text is split into bytes that stand for themselves and escapes
that spell the bytes of a code point (`Parses`), and the decoder accepts it when there is such a split
(`decodeUri_iff`).
-/

namespace JJS
namespace Builtin
namespace Global

open Utf8 Lit Strings

/-- A part of a text: a byte that stands for itself, or escapes that spell bytes for a code point. -/
inductive Piece where
  | plain (b : Byte)
  | spelled (c : Point) (octets spelling : List Byte)

def Piece.input : Piece → List Byte
  | .plain b => [b]
  | .spelled _ _ spelling => spelling

/-- The escapes spell bytes of the given shape. -/
def Piece.Good (shape : Point → List Byte → Prop) : Piece → Prop
  | .plain b => b ≠ Percent.sign
  | .spelled c octets spelling => IsScalar c ∧ shape c octets ∧ Percent.Spells octets spelling

/-- A character whose escape the decoder of the set keeps. -/
def reserved (set : UriSet) (c : Point) : Bool :=
  characterIsIn c.val set.bitset && !characterIsIn c.val unescapedUriComponentSet

/-- What a part is decoded to. -/
def Piece.output (set : UriSet) : Piece → List Byte
  | .plain b => [b]
  | .spelled c _ spelling => if reserved set c then spelling else cesu8 c.units

/-- The shortest form of a code point. -/
def Shortest (c : Point) (octets : List Byte) : Prop := octets = c.encode

/-- The forms of a code point that the validator of UTF-8 lets in. -/
def Validated (c : Point) (octets : List Byte) : Prop := Sequence 0x81 octets ∧ value octets = c.val

theorem Shortest.validated {c : Point} {octets : List Byte} (h : Shortest c octets) : Validated c octets := by
  rw [Shortest] at h
  rw [h]
  exact ⟨c.sequence.mono (by decide), c.value_encode⟩

/-- Escapes begin with a percent sign. -/
theorem Piece.Good.spelling_eq {c : Point} {octets spelling : List Byte} (h : (Piece.spelled c octets spelling).Good Validated) :
    ∃ text, spelling = Percent.sign :: text := by
  obtain ⟨-, hvalid, hspells⟩ := h
  cases hspells with
  | nil => exact absurd rfl hvalid.1.ne_nil
  | cons _ _ => exact ⟨_, rfl⟩

theorem Piece.Good.input_ne_nil {p : Piece} (h : p.Good Validated) : p.input ≠ [] := by
  cases p with
  | plain b => exact List.cons_ne_nil b []
  | spelled c octets spelling =>
    obtain ⟨text, htext⟩ := h.spelling_eq
    rw [Piece.input, htext]
    exact List.cons_ne_nil _ _

/-- A part can be taken off a text in one way only. -/
theorem Piece.Good.append_inj {p p' : Piece} {r r' : List Byte} (h : p.Good Validated) (h' : p'.Good Validated)
    (heq : p.input ++ r = p'.input ++ r') : p = p' ∧ r = r' := by
  cases p with
  | plain b =>
    cases p' with
    | plain b' =>
      obtain ⟨hb, hr⟩ := List.cons.inj heq
      rw [hb]
      exact ⟨rfl, hr⟩
    | spelled c octets spelling =>
      obtain ⟨text, htext⟩ := h'.spelling_eq
      rw [Piece.input, Piece.input, htext] at heq
      exact absurd (List.cons.inj heq).1 h
  | spelled c octets spelling =>
    cases p' with
    | plain b =>
      obtain ⟨text, htext⟩ := h.spelling_eq
      rw [Piece.input, Piece.input, htext] at heq
      exact absurd (List.cons.inj heq).1.symm h'
    | spelled c' octets' spelling' =>
      obtain ⟨-, ⟨hseq, hvalue⟩, hspells⟩ := h
      obtain ⟨-, ⟨hseq', hvalue'⟩, hspells'⟩ := h'
      have heq : spelling ++ r = spelling' ++ r' := heq
      have hoctets : octets = octets' := by
        cases hspells.comparable hspells' heq with
        | inl hstart =>
          obtain ⟨rest, hrest⟩ := hstart
          exact (hseq.append_inj hseq' (hrest.trans (List.append_nil _).symm)).1
        | inr hstart =>
          obtain ⟨rest, hrest⟩ := hstart
          exact (hseq'.append_inj hseq (hrest.trans (List.append_nil _).symm)).1.symm
      have hsize := hspells.length
      rw [hoctets, ← hspells'.length] at hsize
      obtain ⟨hspelling, hr⟩ := List.append_inj heq hsize
      rw [hoctets, hvalue'] at hvalue
      rw [hoctets, hspelling, Fin.ext hvalue.symm]
      exact ⟨rfl, hr⟩

/-- A split of a text. -/
structure Parses (shape : Point → List Byte → Prop) (s : List Byte) (pieces : List Piece) : Prop where
  good : ∀ p ∈ pieces, p.Good shape
  input_eq : pieces.flatMap Piece.input = s

theorem Parses.cons {shape : Point → List Byte → Prop} {s : List Byte} {p : Piece} {pieces : List Piece}
    (hp : p.Good shape) (h : Parses shape s pieces) : Parses shape (p.input ++ s) (p :: pieces) where
  good := List.forall_mem_cons.mpr ⟨hp, h.good⟩
  input_eq := by rw [List.flatMap_cons, h.input_eq]

/-! ## Bytes of a character -/

theorem hexLookup_two (high low : Byte) (rest : List Byte) :
    litCharHexLookup (high :: low :: rest) 2 = (Percent.octet high low).map BitVec.toNat := by
  have hlen : ¬(high :: low :: rest).length < 2 := by
    rw [List.length_cons, List.length_cons]
    omega
  have htake : (high :: low :: rest).take 2 = [high, low] := rfl
  rw [litCharHexLookup, if_neg hlen, htake, hexLookupLoop_cons, Percent.octet]
  cases hd : Ecma404.hexDigit high with
  | none => rfl
  | some d =>
    rw [Option.bind_some, hexLookupLoop_cons]
    cases he : Ecma404.hexDigit low with
    | none => rfl
    | some e =>
      have hdlt := (Percent.hexDigit_ascii hd).2.2
      have helt := (Percent.hexDigit_ascii he).2.2
      have hvalue : (BitVec.ofNat 8 (d * 16 + e)).toNat = d * 16 + e := by
        rw [BitVec.toNat_ofNat]
        exact Nat.mod_eq_of_lt (by omega)
      show hexLookupLoop ((0 * 16 + d) * 16 + e) [] = some (BitVec.ofNat 8 (d * 16 + e)).toNat
      rw [hvalue, Nat.zero_mul, Nat.zero_add]
      rfl

theorem hexLookup_some {input : List Byte} {n : Nat} (h : litCharHexLookup input 2 = some n) :
    ∃ high low rest o, input = high :: low :: rest ∧ Percent.octet high low = some o ∧ n = o.toNat := by
  match input with
  | [] => cases h
  | [_] => cases h
  | high :: low :: rest =>
    rw [hexLookup_two] at h
    obtain ⟨o, ho, hn⟩ := Option.map_eq_some_iff.mp h
    exact ⟨high, low, rest, o, rfl, ho, hn.symm⟩

theorem isExtra_iff (b : Byte) : b &&& 0xc0#8 = 0x80#8 ↔ Cont b := by
  rw [← isExtraByte_iff, isExtraByte, beq_iff_eq]

/-- The escapes of continuation bytes are read. -/
theorem decodeOctets_spells {octets spelling : List Byte} (h : Percent.Spells octets spelling) (hcont : ∀ b ∈ octets, Cont b)
    (rest : List Byte) : decodeOctets octets.length (spelling ++ rest) = some (octets, rest) := by
  induction h with
  | nil => rfl
  | @cons o high low os text ho _ ih =>
    obtain ⟨hfirst, hcont⟩ := List.forall_mem_cons.mp hcont
    show decodeOctets (os.length + 1) (Percent.sign :: (high :: low :: (text ++ rest))) = _
    rw [decodeOctets, if_neg (show ¬Percent.sign ≠ 0x25#8 from fun hne => hne rfl), hexLookup_two, ho]
    dsimp only [Option.map_some]
    have hvalue : BitVec.ofNat 8 o.toNat = o := by rw [BitVec.ofNat_toNat, BitVec.setWidth_eq]
    rw [hvalue, if_neg (fun hne => hne ((isExtra_iff o).mpr hfirst))]
    show (decodeOctets os.length (text ++ rest)).bind _ = _
    rw [ih hcont]
    rfl

/-- Only escapes of continuation bytes are read. -/
theorem decodeOctets_some {count : Nat} {input octets rest : List Byte}
    (h : decodeOctets count input = some (octets, rest)) :
    octets.length = count ∧ ∃ spelling, Percent.Spells octets spelling ∧ input = spelling ++ rest := by
  induction count generalizing input octets with
  | zero =>
    rw [decodeOctets] at h
    cases h
    exact ⟨rfl, [], .nil, rfl⟩
  | succ count ih =>
    cases input with
    | nil => cases h
    | cons char input =>
      rw [decodeOctets] at h
      split at h
      · cases h
      · rename_i hsign
        have hsign : char = Percent.sign := Decidable.not_not.mp hsign
        split at h
        · cases h
        · rename_i n hlookup
          obtain ⟨high, low, input, o, rfl, ho, rfl⟩ := hexLookup_some hlookup
          dsimp only at h
          split at h
          · cases h
          · obtain ⟨p, hp, heq⟩ := Option.bind_eq_some_iff.mp h
            obtain ⟨octets', rest'⟩ := p
            have hvalue : BitVec.ofNat 8 o.toNat = o := by rw [BitVec.ofNat_toNat, BitVec.setWidth_eq]
            rw [hvalue] at heq
            cases heq
            obtain ⟨hlen, spelling, hspells, hinput⟩ := ih hp
            refine ⟨congrArg Nat.succ hlen, _, .cons ho hspells, ?_⟩
            rw [hsign]
            exact congrArg (fun s => Percent.sign :: high :: low :: s) hinput

/-- The first byte of a sequence gives the number of bytes. -/
theorem bytesCount_sequence {o : Byte} {os : List Byte} (h : Sequence 0x81 (o :: os)) (hhigh : ¬o.toNat ≤ 0x7f) :
    bytesCount o = some (os.length + 1) ∧ ∀ b ∈ os, Cont b := by
  have hlead : ∀ o : Byte, (0xC2 ≤ o.toNat ∧ o.toNat < 0xE0 → bytesCount o = some 2) ∧
      (0xE0 ≤ o.toNat ∧ o.toNat < 0xF0 → bytesCount o = some 3) ∧
      (0xF0 ≤ o.toNat ∧ o.toNat ≤ 0xF4 → bytesCount o = some 4) := by decide +kernel
  cases h with
  | one ha => omega
  | two h1 h2 hb => exact ⟨(hlead o).1 ⟨h1, h2⟩, List.forall_mem_cons.mpr ⟨hb, List.forall_mem_nil _⟩⟩
  | three h1 h2 hb hc he =>
    exact ⟨(hlead o).2.1 ⟨h1, h2⟩, List.forall_mem_cons.mpr ⟨hb, List.forall_mem_cons.mpr ⟨hc, List.forall_mem_nil _⟩⟩⟩
  | four h1 h2 hb hc hd h0 h4 =>
    exact ⟨(hlead o).2.2 ⟨h1, h2⟩, List.forall_mem_cons.mpr ⟨hb, List.forall_mem_cons.mpr
      ⟨hc, List.forall_mem_cons.mpr ⟨hd, List.forall_mem_nil _⟩⟩⟩⟩

/-- The validator lets in a single character when it is a sequence. -/
theorem validSequence_iff {o : Byte} {os : List Byte} (hcount : bytesCount o = some (os.length + 1)) :
    litIsValidUtf8String true (o :: os) = true ↔ Sequence 0x81 (o :: os) := by
  have hascii : ∀ o : Byte, o.toNat ≤ 0x7f → bytesCount o = none := by decide +kernel
  constructor
  · intro h
    obtain ⟨c, r, heq, hc⟩ := exists_sequence_of_valid (List.cons_ne_nil o os) h
    cases c with
    | nil => exact absurd rfl hc.ne_nil
    | cons o' os' =>
      obtain ⟨rfl, hos⟩ := List.cons.inj heq
      have hhigh : ¬o.toNat ≤ 0x7f := by
        intro hle
        rw [hascii o hle] at hcount
        cases hcount
      have hcount' := (bytesCount_sequence hc hhigh).1
      rw [hcount] at hcount'
      have hos : os = os' ++ r := hos
      have hlen := congrArg List.length hos
      rw [List.length_append] at hlen
      have hr : r = [] := by
        apply List.eq_nil_of_length_eq_zero
        have hsame := Option.some.inj hcount'
        omega
      rw [hos, hr, List.append_nil]
      exact hc
  · intro h
    have happend : litIsValidUtf8String true (o :: os ++ []) = true := by
      rw [litIsValidUtf8String_append h]
      refine ⟨?_, by rw [litIsValidUtf8String]⟩
      intro hboth
      exact Bool.false_ne_true hboth.2.2
    rw [List.append_nil] at happend
    exact happend

theorem isSurrogate_iff {cp : CodePoint} {c : Point} (h : cp.toNat = c.val) : isSurrogate cp = true ↔ ¬IsScalar c := by
  have hle : ∀ n, n < 2 ^ 32 → (BitVec.ofNat 32 n ≤ cp ↔ n ≤ c.val) ∧ (cp ≤ BitVec.ofNat 32 n ↔ c.val ≤ n) := by
    intro n hn
    rw [BitVec.le_def, BitVec.le_def, BitVec.toNat_ofNat, Nat.mod_eq_of_lt hn, h]
    exact ⟨Iff.rfl, Iff.rfl⟩
  have h1 := (hle 0xd800 (by omega)).1
  have h2 := (hle 0xdbff (by omega)).2
  have h3 := (hle 0xdc00 (by omega)).1
  have h4 := (hle 0xdfff (by omega)).2
  rw [isSurrogate, Bool.or_eq_true, Bool.and_eq_true, Bool.and_eq_true, decide_eq_true_eq, decide_eq_true_eq,
    decide_eq_true_eq, decide_eq_true_eq, h1, h2, h3, h4, IsScalar, Point.IsHigh, Point.IsLow]
  omega

/-- A surrogate of a code point beyond 16 bits. -/
theorem toNat_or_surrogate {base x : CodeUnit} {k : Nat} (hbase : base.toNat = 2 ^ 10 * k) (hx : x.toNat < 2 ^ 10) :
    (base ||| x).toNat = base.toNat + x.toNat := by
  rw [BitVec.toNat_or, hbase, ← Nat.two_pow_add_eq_or_of_lt hx]

/-- The builder is given the code units of the code point. -/
theorem litCodePointToCesu8_point {cp : CodePoint} {c : Point} (h : cp.toNat = c.val) :
    litCodePointToCesu8 cp = cesu8 c.units := by
  have hc := c.isLt
  have hle : cp ≤ 0xffff#32 ↔ c.val < 0x10000 := by
    rw [BitVec.le_def, h]
    show c.val ≤ 0xffff ↔ _
    omega
  rw [litCodePointToCesu8]
  by_cases hsmall : c.val < 0x10000
  · have hunit : (cp.setWidth 16).toNat = c.val := by
      rw [BitVec.toNat_setWidth, h]
      exact Nat.mod_eq_of_lt hsmall
    rw [if_pos (hle.mpr hsmall), litCodeUnitToUtf8_eq, hunit, Point.cesu8_units hsmall]
    rfl
  · have hsub : (cp - 0x10000#32).toNat = c.val - 0x10000 := by
      have hlarge : (0x10000#32).toNat = 0x10000 := rfl
      have hbelow : 0x10000#32 ≤ cp := by
        rw [BitVec.le_def, h, hlarge]
        exact Nat.le_of_not_lt hsmall
      rw [BitVec.toNat_sub_of_le hbelow, h, hlarge]
    have hhigh : (convertCodePointToHighSurrogate cp).toNat = 0xD800 + (c.val - 0x10000) / 0x400 := by
      have hpart : (((cp - 0x10000#32) >>> 10).setWidth 16 : CodeUnit).toNat = (c.val - 0x10000) / 0x400 := by
        rw [BitVec.toNat_setWidth, toNat_shift, hsub]
        exact Nat.mod_eq_of_lt (by omega)
      have hvalue : (0xd800#16).toNat = 0xD800 := rfl
      have hbase : (0xd800#16).toNat = 2 ^ 10 * 54 := by omega
      rw [convertCodePointToHighSurrogate, toNat_or_surrogate hbase (by omega), hpart, hvalue]
    have hlow : (convertCodePointToLowSurrogate cp).toNat = 0xDC00 + (c.val - 0x10000) % 0x400 := by
      have hpart : ((cp &&& 0x3ff#32).setWidth 16 : CodeUnit).toNat = (c.val - 0x10000) % 0x400 := by
        have hmask : (0x3ff#32).toNat = 2 ^ 10 - 1 := rfl
        rw [BitVec.toNat_setWidth, BitVec.toNat_and, hmask, Nat.and_two_pow_sub_one_eq_mod, h]
        omega
      have hvalue : (0xdc00#16).toNat = 0xDC00 := rfl
      have hbase : (0xdc00#16).toNat = 2 ^ 10 * 55 := by omega
      rw [convertCodePointToLowSurrogate, toNat_or_surrogate hbase (by omega), hpart, hvalue]
    have hhigh16 : (BitVec.ofNat 16 (0xD800 + (c.val - 0x10000) / 0x400)).toNat = 0xD800 + (c.val - 0x10000) / 0x400 := by
      rw [BitVec.toNat_ofNat]
      exact Nat.mod_eq_of_lt (by omega)
    have hlow16 : (BitVec.ofNat 16 (0xDC00 + (c.val - 0x10000) % 0x400)).toNat = 0xDC00 + (c.val - 0x10000) % 0x400 := by
      rw [BitVec.toNat_ofNat]
      exact Nat.mod_eq_of_lt (by omega)
    rw [if_neg (fun hsmall' => hsmall (hle.mp hsmall')), litCodeUnitToUtf8_eq, litCodeUnitToUtf8_eq, hhigh, hlow, Point.units,
      if_neg hsmall, cesu8_cons, cesu8_cons, cesu8_nil, List.append_nil, hhigh16, hlow16]

/-! ## The decoder -/

/-- The bytes of a character are decoded. -/
theorem decodeMultibyte_spells {c : Point} {o : Byte} {os text : List Byte} (hc : IsScalar c)
    (hvalid : Validated c (o :: os)) (hhigh : ¬o.toNat ≤ 0x7f) (hspells : Percent.Spells os text) (rest : List Byte) :
    decodeMultibyte o (text ++ rest) = .ok (cesu8 c.units, rest) := by
  obtain ⟨hseq, hvalue⟩ := hvalid
  obtain ⟨hcount, hcont⟩ := bytesCount_sequence hseq hhigh
  obtain ⟨cp, hread, hcp⟩ := litReadCodePointFromUtf8_append hseq []
  rw [List.append_nil] at hread
  rw [hvalue] at hcp
  have hsurrogate : ¬isSurrogate cp = true := fun h => (isSurrogate_iff hcp).mp h hc
  have htrue : ¬litIsValidUtf8String true (o :: os) = false := by
    rw [(validSequence_iff hcount).mpr hseq]
    exact Bool.true_eq_false_eq_False
  rw [decodeMultibyte, hcount]
  dsimp only
  rw [Nat.add_sub_cancel, decodeOctets_spells hspells hcont]
  dsimp only
  rw [if_neg htrue, hread]
  dsimp only
  rw [if_neg hsurrogate, litCodePointToCesu8_point hcp]

/-- An overlong form is the form of a code point that three bytes can hold. -/
theorem value_overlong {octets : List Byte} (h : Overlong octets) : value octets < 0x10000 := by
  unfold Overlong at h
  split at h
  · obtain ⟨ha, hb1, hb2, hc, hd⟩ := h
    rw [Utf8.Cont] at hc hd
    rw [value]
    omega
  · exact h.elim

theorem value_le {octets : List Byte} (h : Sequence 0x81 octets) : value octets ≤ 0x10FFFF := by
  cases sequence_or_overlong h with
  | inl hshort => exact hshort.encode_value.1
  | inr hlong =>
    have hlt := value_overlong hlong
    omega

/-- What is decoded are the bytes of a character. -/
theorem decodeMultibyte_ok {o : Byte} {input : List Byte} {q : List Byte × List Byte}
    (h : decodeMultibyte o input = .ok q) :
    ∃ c os text rest, IsScalar c ∧ Validated c (o :: os) ∧ Percent.Spells os text ∧ input = text ++ rest := by
  rw [decodeMultibyte] at h
  split at h
  · cases h
  · rename_i count hcount
    split at h
    · cases h
    · rename_i os rest hoctets
      obtain ⟨hlen, text, hspells, hinput⟩ := decodeOctets_some hoctets
      have hpos : 0 < count := by
        rw [bytesCount] at hcount
        split at hcount
        · cases hcount
          decide
        · split at hcount
          · cases hcount
            decide
          · split at hcount
            · cases hcount
              decide
            · cases hcount
      have hcount' : bytesCount o = some (os.length + 1) := by
        rw [hcount, hlen, Nat.sub_add_cancel hpos]
      dsimp only at h
      split at h
      · cases h
      · rename_i hvalid
        rw [Bool.not_eq_false, validSequence_iff hcount'] at hvalid
        obtain ⟨cp, hread, hcp⟩ := litReadCodePointFromUtf8_append hvalid []
        rw [List.append_nil] at hread
        rw [hread] at h
        dsimp only at h
        split at h
        · cases h
        · rename_i hsurrogate
          have hmax := value_le hvalid
          let c : Point := ⟨value (o :: os), by omega⟩
          have hc : IsScalar c := by
            have hiff : isSurrogate cp = true ↔ ¬IsScalar c := isSurrogate_iff hcp
            exact Decidable.not_not.mp fun hnot => hsurrogate (hiff.mpr hnot)
          exact ⟨c, os, text, rest, hc, ⟨hvalid, rfl⟩, hspells, hinput⟩

theorem ascii_sequence {o : Byte} {os : List Byte} (h : Sequence 0x81 (o :: os)) (hascii : o.toNat ≤ 0x7f) : os = [] := by
  cases h with
  | one _ => rfl
  | two h1 _ _ => omega
  | three h1 _ _ _ _ => omega
  | four h1 _ _ _ _ _ _ => omega

theorem encode_ascii {c : Point} {o : Byte} (h : o.toNat = c.val) (hascii : o.toNat ≤ 0x7f) : cesu8 c.units = [o] := by
  have hencode : c.encode = [o] := by
    rw [Point.encode, encode, if_pos (by omega), ← h, BitVec.ofNat_toNat, BitVec.setWidth_eq]
  rw [Point.cesu8_units (by omega), hencode]

theorem value_high {o : Byte} {os : List Byte} {n : Nat} (h : Sequence 0x81 (o :: os)) (hvalue : value (o :: os) = n)
    (hhigh : ¬o.toNat ≤ 0x7f) : 0x80 ≤ n := by
  cases h with
  | one ha => omega
  | two h1 h2 hb =>
    rw [value] at hvalue
    omega
  | three h1 h2 hb hc he =>
    rw [Utf8.Cont] at hb
    rw [value] at hvalue
    omega
  | four h1 h2 hb hc hd h0 h4 =>
    rw [Utf8.Cont] at hb
    rw [value] at hvalue
    omega

/-- The sets are sets of ASCII characters. -/
theorem characterIsIn_high (set : UriSet) {n : Nat} (h : 0x80 ≤ n) : characterIsIn n set.bitset = false := by
  have hlen : set.bitset.length = 16 := by
    cases set with
    | uri => rfl
    | component => rfl
  have hdefault : set.bitset.getD (n / 8) 0#8 = 0#8 := List.getD_eq_default _ _ (by omega)
  rw [characterIsIn, hdefault, BitVec.zero_and]
  rfl

/-- A part of a text is decoded to its output. -/
theorem decodeUri_piece (set : UriSet) {p : Piece} (hp : p.Good Validated) (rest : List Byte) :
    decodeUriHelper set.bitset (p.input ++ rest) = (decodeUriHelper set.bitset rest).map (p.output set ++ ·) := by
  cases p with
  | plain b => exact decodeUri_plain _ hp rest
  | spelled c octets spelling =>
    obtain ⟨hc, hvalid, hspells⟩ := hp
    cases hspells with
    | nil => exact absurd rfl hvalid.1.ne_nil
    | @cons o high low os text ho hspells =>
      have hlookup : litCharHexLookup (high :: low :: (text ++ rest)) 2 = some o.toNat := by
        rw [hexLookup_two, ho]
        rfl
      have hbyte : BitVec.ofNat 8 o.toNat = o := by rw [BitVec.ofNat_toNat, BitVec.setWidth_eq]
      show decodeUriHelper set.bitset (Percent.sign :: (high :: low :: (text ++ rest))) = _
      rw [decodeUri_sign, decodeEscape, hlookup]
      dsimp only
      by_cases hascii : o.toNat ≤ 0x7f
      · have hos := ascii_sequence hvalid.1 hascii
        have hvalue : o.toNat = c.val := by
          have hvalue := hvalid.2
          rw [hos] at hvalue
          exact hvalue
        have htext : text = [] := by
          rw [hos] at hspells
          cases hspells
          rfl
        rw [if_pos hascii, htext, List.nil_append, Piece.output, reserved, hvalue]
        split
        · -- the escape of a reserved character is copied byte by byte
          obtain ⟨⟨hhigh, -⟩, hlow, -⟩ := Percent.octet_some ho
          show (decodeUriHelper set.bitset (high :: low :: rest)).map ([0x25#8] ++ ·) = _
          rw [decodeUri_plain _ hhigh, decodeUri_plain _ hlow]
          cases decodeUriHelper set.bitset rest with
          | error e => rfl
          | ok r => rfl
        · rw [← hvalue, hbyte, encode_ascii hvalue hascii]
          rfl
      · have hreserved : ¬reserved set c = true := by
          intro hboth
          have hkeep := (Bool.and_eq_true_iff.mp hboth).1
          have hlarge : 0x80 ≤ c.val := by
            have hvalue := hvalid.2
            exact value_high hvalid.1 hvalue hascii
          rw [characterIsIn_high set hlarge] at hkeep
          cases hkeep
        rw [if_neg hascii, hbyte]
        show (decodeMultibyte o (text ++ rest)).bind _ = _
        rw [decodeMultibyte_spells hc hvalid hascii hspells, Piece.output, if_neg hreserved]
        rfl

/-- The decoder goes on behind a part of a text. -/
theorem decodeEscape_ok {bitset input : List Byte} {q : List Byte × List Byte} (h : decodeEscape bitset input = .ok q) :
    ∃ c octets spelling rest, (Piece.spelled c octets spelling).Good Validated ∧
      Percent.sign :: input = spelling ++ rest := by
  rw [decodeEscape] at h
  split at h
  · cases h
  · rename_i n hlookup
    obtain ⟨high, low, rest, o, rfl, ho, rfl⟩ := hexLookup_some hlookup
    by_cases hascii : o.toNat ≤ 0x7f
    · let c : Point := ⟨o.toNat, by omega⟩
      have hc : IsScalar c := by
        constructor
        · intro hhigh
          rw [Point.IsHigh] at hhigh
          have hval : c.val = o.toNat := rfl
          omega
        · intro hlow
          rw [Point.IsLow] at hlow
          have hval : c.val = o.toNat := rfl
          omega
      exact ⟨c, [o], _, rest, ⟨hc, ⟨.one (by omega), rfl⟩, .cons ho .nil⟩, rfl⟩
    · have hbyte : BitVec.ofNat 8 o.toNat = o := by rw [BitVec.ofNat_toNat, BitVec.setWidth_eq]
      rw [if_neg hascii, hbyte] at h
      obtain ⟨c, os, text, rest', hc, hvalid, hspells, hinput⟩ := decodeMultibyte_ok h
      refine ⟨c, o :: os, _, rest', ⟨hc, hvalid, .cons ho hspells⟩, ?_⟩
      exact congrArg (fun s => Percent.sign :: high :: low :: s) hinput

/-- The decoder accepts a text just when it can be split, and returns the outputs of the parts. -/
theorem decodeUri_iff (set : UriSet) (s r : List Byte) :
    decodeUriHelper set.bitset s = .ok r ↔
      ∃ pieces, Parses Validated s pieces ∧ r = pieces.flatMap (Piece.output set) := by
  constructor
  · intro h
    induction hlen : s.length using Nat.strong_induction_on generalizing s r with
    | _ n ih =>
      cases s with
      | nil =>
        cases h
        exact ⟨[], ⟨List.forall_mem_nil _, rfl⟩, rfl⟩
      | cons b input =>
        have hpiece : ∃ (p : Piece) (rest : List Byte), p.Good Validated ∧ b :: input = p.input ++ rest := by
          by_cases hb : b = Percent.sign
          · rw [hb, decodeUri_sign] at h
            cases hescape : decodeEscape set.bitset input with
            | error e =>
              rw [hescape] at h
              cases h
            | ok q =>
              obtain ⟨c, octets, spelling, rest, hgood, heq⟩ := decodeEscape_ok hescape
              exact ⟨.spelled c octets spelling, rest, hgood, by rw [hb]; exact heq⟩
          · exact ⟨.plain b, input, hb, rfl⟩
        obtain ⟨p, rest, hgood, hinput⟩ := hpiece
        have hne := hgood.input_ne_nil
        rw [hinput, decodeUri_piece set hgood] at h
        cases hrest : decodeUriHelper set.bitset rest with
        | error e =>
          rw [hrest] at h
          cases h
        | ok r' =>
          rw [hrest] at h
          cases h
          have hshort : rest.length < n := by
            have hpos := List.length_pos_iff.mpr hne
            rw [← hlen, hinput, List.length_append]
            omega
          obtain ⟨pieces, hparses, hr⟩ := ih rest.length hshort rest r' hrest rfl
          refine ⟨p :: pieces, ?_, by rw [List.flatMap_cons, hr]⟩
          rw [hinput]
          exact hparses.cons hgood
  · intro h
    obtain ⟨pieces, ⟨hgood, hinput⟩, hr⟩ := h
    rw [← hinput, hr]
    clear hinput hr
    induction pieces with
    | nil => rfl
    | cons p pieces ih =>
      obtain ⟨hp, hpieces⟩ := List.forall_mem_cons.mp hgood
      rw [List.flatMap_cons, List.flatMap_cons, decodeUri_piece set hp, ih hpieces]
      rfl

theorem Piece.Good.mono {p : Piece} (h : p.Good Shortest) : p.Good Validated := by
  cases p with
  | plain b => exact h
  | spelled c octets spelling => exact ⟨h.1, h.2.1.validated, h.2.2⟩

theorem Parses.mono {s : List Byte} {pieces : List Piece} (h : Parses Shortest s pieces) : Parses Validated s pieces where
  good := fun p hp => (h.good p hp).mono
  input_eq := h.input_eq

/-- A text has one split at most. -/
theorem Parses.unique {s : List Byte} {pieces pieces' : List Piece} (h : Parses Validated s pieces)
    (h' : Parses Validated s pieces') : pieces = pieces' := by
  induction pieces generalizing s pieces' with
  | nil =>
    cases pieces' with
    | nil => rfl
    | cons p' pieces' =>
      have hs := h'.input_eq
      rw [← h.input_eq, List.flatMap_cons] at hs
      exact absurd (List.append_eq_nil_iff.mp hs).1 (h'.good p' List.mem_cons_self).input_ne_nil
  | cons p pieces ih =>
    cases pieces' with
    | nil =>
      have hs := h.input_eq
      rw [← h'.input_eq, List.flatMap_cons] at hs
      exact absurd (List.append_eq_nil_iff.mp hs).1 (h.good p List.mem_cons_self).input_ne_nil
    | cons p' pieces' =>
      obtain ⟨hp, hpieces⟩ := List.forall_mem_cons.mp h.good
      obtain ⟨hp', hpieces'⟩ := List.forall_mem_cons.mp h'.good
      have hs := h.input_eq.trans h'.input_eq.symm
      rw [List.flatMap_cons, List.flatMap_cons] at hs
      obtain ⟨rfl, hrest⟩ := hp.append_inj hp' hs
      rw [ih ⟨hpieces, rfl⟩ ⟨hpieces', hrest.symm⟩]

/-! ## Decoding what is encoded -/

/-- What the encoder writes for a code point is a part that is decoded to the code point. -/
theorem exists_piece (set : UriSet) {c : Point} (hc : IsScalar c) :
    ∃ p : Piece, p.Good Validated ∧ p.input = Percent.encode set.keep c.encode ∧ p.output set = cesu8 c.units := by
  have hescaped : (∀ b ∈ c.encode, set.keep b = false) → ¬reserved set c = true →
      ∃ p : Piece, p.Good Validated ∧ p.input = Percent.encode set.keep c.encode ∧ p.output set = cesu8 c.units := by
    intro hkeep hreserved
    refine ⟨.spelled c c.encode (c.encode.flatMap Percent.escape), ⟨hc, Shortest.validated rfl, Percent.spells_escapes _⟩,
      ?_, if_neg hreserved⟩
    refine List.flatMap_congr fun b hb => ?_
    rw [Percent.encodeByte, hkeep b hb]
    rfl
  cases Percent.utf8_cases c with
  | inl hone =>
    obtain ⟨b, hb, hascii⟩ := hone
    have hvalue : b.toNat = c.val := by
      have hvalue := c.value_encode
      rw [hb] at hvalue
      exact hvalue
    by_cases hkeep : set.keep b = true
    · have hsign : b ≠ Percent.sign := by
        intro heq
        rw [heq, keep_sign] at hkeep
        cases hkeep
      refine ⟨.plain b, hsign, ?_, (encode_ascii hvalue (by omega)).symm⟩
      rw [hb, Percent.encode_cons, Percent.encode_nil, List.append_nil, Percent.encodeByte, if_pos hkeep]
      rfl
    · have hfalse : set.keep b = false := Bool.not_eq_true _ ▸ hkeep
      refine hescaped ?_ ?_
      · intro b' hb'
        rw [hb] at hb'
        rw [List.mem_singleton.mp hb']
        exact hfalse
      · intro hreserved
        have hin := (Bool.and_eq_true_iff.mp hreserved).1
        rw [← hvalue] at hin
        exact hkeep hin
  | inr hhigh =>
    refine hescaped ?_ ?_
    · intro b hb
      exact characterIsIn_high set (hhigh b hb)
    · intro hreserved
      have hin := (Bool.and_eq_true_iff.mp hreserved).1
      have hlarge : 0x80 ≤ c.val := by
        by_contra hsmall
        have hencode : c.encode = [BitVec.ofNat 8 c.val] := by
          rw [Point.encode, encode, if_pos (by omega)]
        have hb := hhigh (BitVec.ofNat 8 c.val) (by rw [hencode]; exact List.mem_singleton.mpr rfl)
        rw [BitVec.toNat_ofNat, Nat.mod_eq_of_lt (by omega)] at hb
        omega
      rw [characterIsIn_high set hlarge] at hin
      cases hin

theorem decode_uriText (set : UriSet) {cs : List Point} (h : ∀ c ∈ cs, IsScalar c) :
    decodeUriHelper set.bitset (uriText set cs) = .ok (cesu8 (units cs)) := by
  induction cs with
  | nil => rfl
  | cons c cs ih =>
    obtain ⟨hc, hcs⟩ := List.forall_mem_cons.mp h
    obtain ⟨p, hgood, hinput, houtput⟩ := exists_piece set hc
    have htext : uriText set (c :: cs) = p.input ++ uriText set cs := by
      rw [uriText, utf8_cons, Percent.encode_append, hinput]
      rfl
    have hunits : cesu8 (units (c :: cs)) = cesu8 c.units ++ cesu8 (units cs) := cesu8_append _ _
    rw [htext, decodeUri_piece set hgood, ih hcs, houtput, hunits]
    rfl

/-- Decoding undoes encoding. -/
theorem decode_encode_uri (set : UriSet) {us : List CodeUnit} {t : List Byte}
    (h : encodeUriHelper set.bitset (cesu8 us) = .ok t) : decodeUriHelper set.bitset t = .ok (cesu8 us) := by
  rw [encodeUriHelper_eq] at h
  split at h
  · rename_i hall
    cases h
    have hscalar := (paired_iff us).mp ((paired_iff_scalars us).mpr hall)
    rw [decode_uriText set hscalar, units_points]
  · cases h

theorem encode_uri_iff (set : UriSet) (us : List CodeUnit) :
    (∃ t, encodeUriHelper set.bitset (cesu8 us) = .ok t) ↔ Paired us := by
  rw [encodeUriHelper_eq, paired_iff_scalars]
  constructor
  · intro h
    obtain ⟨t, ht⟩ := h
    by_contra hnot
    rw [if_neg hnot] at ht
    cases ht
  · intro h
    rw [if_pos h]
    exact ⟨_, rfl⟩

end Global
end Builtin
end JJS
