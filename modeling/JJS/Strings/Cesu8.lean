import JJS.Strings.Create

/-!
# JJS.Strings.Cesu8

CESU-8 as an encoding of UTF-16 (`lit-strings.c`): the validator, the readers in both directions, and the order of
strings. A position of the validator is a `lit_utf8_size_t`, and the sum that is compared with the size of the buffer
wraps around when a character is cut off at the end of 4 GiB.
-/

namespace JJS
namespace Strings

open Utf8 Lit

/-! ## The validator -/

/-- `lit_is_valid_cesu8_string` from a position on; `none` is a read outside the buffer. -/
def litIsValidCesu8Loop (bufSize : Nat) (idx : Nat) : List Byte → Option Bool
  | [] => some true
  | c :: rest =>
    if c &&& 0x80#8 = 0x00#8 then litIsValidCesu8Loop bufSize (idx + 1) rest
    else if c &&& 0xe0#8 = 0xc0#8 then
      if bufSize < (idx + 1 + 1) % 2 ^ 32 then some false
      else
        match rest with
        | [] => none
        | b :: rest =>
          if !isExtraByte b then some false
          else if addExtraByte ((c &&& 0x1f#8).setWidth 32) b < 0x80#32 then some false
          else litIsValidCesu8Loop bufSize (idx + 2) rest
    else if c &&& 0xf0#8 = 0xe0#8 then
      if bufSize < (idx + 1 + 2) % 2 ^ 32 then some false
      else
        match rest with
        | [] => none
        | b :: rest =>
          if !isExtraByte b then some false
          else
            match rest with
            | [] => none
            | d :: rest =>
              if !isExtraByte d then some false
              else if addExtraByte (addExtraByte ((c &&& 0x0f#8).setWidth 32) b) d < 0x800#32 then some false
              else litIsValidCesu8Loop bufSize (idx + 3) rest
    else some false

/-- `lit_is_valid_cesu8_string`. -/
def litIsValidCesu8String (s : List Byte) : Option Bool := litIsValidCesu8Loop s.length 0 s

/-! ## The readers -/

/-- `lit_read_code_unit_from_cesu8` as long as there is something to read. The first argument bounds the number of
steps. -/
def readCodeUnits : Nat → List Byte → Option (List CodeUnit)
  | _, [] => some []
  | 0, _ :: _ => none
  | steps + 1, b :: s => do
    let (size, codeUnit) ← litReadCodeUnitFromCesu8 (b :: s)
    let codeUnits ← readCodeUnits steps ((b :: s).drop size)
    some (codeUnit :: codeUnits)

/-- `lit_utf8_decr`, for a position in `s`; `none` is a position before the buffer. -/
def litUtf8Decr (s : List Byte) : Nat → Option Nat
  | 0 => none
  | current + 1 => if isExtraByte (s.getD current 0#8) then litUtf8Decr s current else some current

/-- `lit_cesu8_read_prev`: the position before, and the code unit. -/
def litCesu8ReadPrev (s : List Byte) (position : Nat) : Option (Nat × CodeUnit) := do
  let position ← litUtf8Decr s position
  let (_, codeUnit) ← litReadCodeUnitFromCesu8 (s.drop position)
  some (position, codeUnit)

/-- `lit_cesu8_read_prev` until the beginning of the buffer is reached. -/
def readCodeUnitsBack (s : List Byte) : Nat → Nat → Option (List CodeUnit)
  | _, 0 => some []
  | 0, _ + 1 => none
  | steps + 1, position + 1 => do
    let (position, codeUnit) ← litCesu8ReadPrev s (position + 1)
    let codeUnits ← readCodeUnitsBack s steps position
    some (codeUnit :: codeUnits)

/-- `lit_utf8_string_code_unit_at`. -/
def litUtf8StringCodeUnitAt : List Byte → Nat → Option CodeUnit
  | s, 0 => (litReadCodeUnitFromCesu8 s).map Prod.snd
  | s, offset + 1 => do
    let (size, _) ← litReadCodeUnitFromCesu8 s
    litUtf8StringCodeUnitAt (s.drop size) offset

/-- The loop of `lit_compare_utf8_strings_relational`. The first argument bounds the number of steps. -/
def compareRelationalLoop : Nat → List Byte → List Byte → Option Bool
  | 0, _, _ => none
  | _, [], t => some (!t.isEmpty)
  | _, _ :: _, [] => some false
  | steps + 1, a :: s, b :: t => do
    let (size₁, ch₁) ← litReadCodeUnitFromCesu8 (a :: s)
    let (size₂, ch₂) ← litReadCodeUnitFromCesu8 (b :: t)
    if ch₁ < ch₂ then some true
    else if ch₂ < ch₁ then some false
    else compareRelationalLoop steps ((a :: s).drop size₁) ((b :: t).drop size₂)

/-- `lit_compare_utf8_strings_relational`. -/
def litCompareUtf8StringsRelational (s t : List Byte) : Option Bool := compareRelationalLoop (s.length + 1) s t

/-! ## What is valid -/

theorem flatMap_litCodeUnitToUtf8 (us : List CodeUnit) : us.flatMap litCodeUnitToUtf8 = cesu8 us := by
  rw [cesu8]
  congr 1
  funext u
  exact litCodeUnitToUtf8_eq u

/-- What the masks of the validator say about a byte. -/
theorem lead_masks : ∀ c : Byte,
    (c &&& 0x80#8 = 0x00#8 ↔ c.toNat < 0x80) ∧ (c &&& 0xe0#8 = 0xc0#8 ↔ 0xC0 ≤ c.toNat ∧ c.toNat < 0xE0) ∧
      (c &&& 0xf0#8 = 0xe0#8 ↔ 0xE0 ≤ c.toNat ∧ c.toNat < 0xF0) := by
  decide +kernel

theorem exists_codeUnit {c : List Byte} (hc : Sequence 0x90 c) (hlen : c.length ≤ 3) :
    ∃ u : CodeUnit, encode u.toNat = c := by
  obtain ⟨_, hencode⟩ := hc.encode_value
  have hlt : value c < 2 ^ 16 := by
    by_contra hge
    rw [← hencode, encode, if_neg (by omega), if_neg (by omega), if_neg (by omega)] at hlen
    simp at hlen
  refine ⟨BitVec.ofNat 16 (value c), ?_⟩
  rw [BitVec.toNat_ofNat, Nat.mod_eq_of_lt hlt, hencode]

theorem length_encode_le (u : CodeUnit) : (encode u.toNat).length ≤ 3 := by
  have hu := u.isLt
  rw [encode]
  split
  · exact Nat.le_add_left 1 2
  · split
    · exact Nat.le_add_left 2 1
    · exact Nat.le_refl 3

/-- The first byte of a character with so many extra bytes. -/
def Leads (extra : Nat) (c : Byte) : Prop :=
  extra = 1 ∧ 0xC0 ≤ c.toNat ∧ c.toNat < 0xE0 ∨ extra = 2 ∧ 0xE0 ≤ c.toNat ∧ c.toNat < 0xF0

/-- A character is cut off, and the position after it does not fit in 32 bits. -/
def CutOff (idx : Nat) (s : List Byte) : Prop :=
  ∃ c t extra, s = c :: t ∧ Leads extra c ∧ t.length < extra ∧ (∀ b ∈ t, Cont b) ∧ 2 ^ 32 ≤ idx + 1 + extra

/-- The string is valid up to a character that is cut off at the end of 4 GiB. -/
def EndsInside (s : List Byte) : Prop :=
  ∃ us r, s = cesu8 us ++ r ∧ CutOff (cesu8 us).length r

section

variable {bufSize idx : Nat}

theorem toNat_two {c b : Byte} (h : 0xC0 ≤ c.toNat ∧ c.toNat < 0xE0) (hb : Cont b) :
    addExtraByte ((c &&& 0x1f#8).setWidth 32) b < 0x80#32 ↔ c.toNat < 0xC2 := by
  have hc : ((c &&& 0x1f#8).setWidth 32 : CodePoint).toNat = c.toNat % 32 := toNat_and_mask c 5 rfl
  obtain ⟨hb1, hb2⟩ := hb
  rw [BitVec.lt_def, toNat_addExtraByte (by omega), hc]
  show _ < 0x80 ↔ _
  omega

theorem toNat_three {c b d : Byte} (h : 0xE0 ≤ c.toNat ∧ c.toNat < 0xF0) (hb : Cont b) (hd : Cont d) :
    addExtraByte (addExtraByte ((c &&& 0x0f#8).setWidth 32) b) d < 0x800#32 ↔ c.toNat = 0xE0 ∧ b.toNat < 0xA0 := by
  have hc : ((c &&& 0x0f#8).setWidth 32 : CodePoint).toNat = c.toNat % 16 := toNat_and_mask c 4 rfl
  have hcb := toNat_addExtraByte (show ((c &&& 0x0f#8).setWidth 32 : CodePoint).toNat < 2 ^ 26 by omega) b
  obtain ⟨hb1, hb2⟩ := hb
  obtain ⟨hd1, hd2⟩ := hd
  rw [BitVec.lt_def, toNat_addExtraByte (by omega), hcb, hc]
  show _ < 0x800 ↔ _
  omega

theorem not_isExtraByte {b : Byte} (h : ¬Cont b) : (!isExtraByte b) = true := by
  rw [Bool.not_eq_true', ← Bool.not_eq_true]
  exact fun hb => h ((isExtraByte_iff b).mp hb)

theorem isExtraByte_cont {b : Byte} (h : Cont b) : ¬(!isExtraByte b) = true := by
  rw [(isExtraByte_iff b).mpr h]
  exact Bool.false_ne_true

/-- The validator goes over a code unit. -/
theorem validLoop_unit (u : CodeUnit) (r : List Byte) (hidx : idx + (encode u.toNat ++ r).length = bufSize)
    (hlt : bufSize < 2 ^ 32) :
    litIsValidCesu8Loop bufSize idx (encode u.toNat ++ r) =
      litIsValidCesu8Loop bufSize (idx + (encode u.toNat).length) r := by
  have hseq : Sequence 0x90 (encode u.toNat) := (unitPoint u).sequence
  have hlen : (encode u.toNat).length ≤ 3 := length_encode_le u
  cases hc : encode u.toNat with
  | nil => exact absurd hc hseq.ne_nil
  | cons c t =>
    rw [hc] at hseq hlen hidx
    obtain ⟨h1, h2, h3⟩ := lead_masks c
    rw [List.length_append, List.length_cons] at hidx
    cases hseq with
    | one ha =>
      rw [List.cons_append, List.nil_append]
      conv_lhs => rw [litIsValidCesu8Loop.eq_def]
      dsimp only
      rw [if_pos (h1.mpr ha), List.length_singleton]
    | @two _ b ha ha' hb =>
      have hwrap : ¬bufSize < (idx + 1 + 1) % 2 ^ 32 := by
        rw [List.length_singleton] at hidx
        omega
      have hmin : ¬addExtraByte ((c &&& 0x1f#8).setWidth 32) b < 0x80#32 := by
        rw [toNat_two (by omega) hb]
        omega
      rw [List.cons_append, List.cons_append, List.nil_append]
      conv_lhs => rw [litIsValidCesu8Loop.eq_def]
      dsimp only
      rw [if_neg (by rw [h1]; omega), if_pos (h2.mpr (by omega)), if_neg hwrap, if_neg (isExtraByte_cont hb),
        if_neg hmin, List.length_cons, List.length_singleton]
    | @three _ b d ha ha' hb hd he =>
      have hwrap : ¬bufSize < (idx + 1 + 2) % 2 ^ 32 := by
        rw [List.length_cons, List.length_singleton] at hidx
        omega
      have hmin : ¬addExtraByte (addExtraByte ((c &&& 0x0f#8).setWidth 32) b) d < 0x800#32 := by
        rw [toNat_three (by omega) hb hd]
        intro h
        have := he h.1
        omega
      rw [List.cons_append, List.cons_append, List.cons_append, List.nil_append]
      conv_lhs => rw [litIsValidCesu8Loop.eq_def]
      dsimp only
      rw [if_neg (by rw [h1]; omega), if_neg (by rw [h2]; omega), if_pos (h3.mpr (by omega)), if_neg hwrap,
        if_neg (isExtraByte_cont hb), if_neg (isExtraByte_cont hd), if_neg hmin, List.length_cons, List.length_cons,
        List.length_singleton]
    | four _ _ _ _ _ _ _ => simp at hlen

theorem validLoop_cesu8 (us : List CodeUnit) (r : List Byte) (hidx : idx + (cesu8 us ++ r).length = bufSize)
    (hlt : bufSize < 2 ^ 32) :
    litIsValidCesu8Loop bufSize idx (cesu8 us ++ r) = litIsValidCesu8Loop bufSize (idx + (cesu8 us).length) r := by
  induction us generalizing idx with
  | nil => rfl
  | cons u us ih =>
    rw [cesu8_cons, List.append_assoc] at hidx ⊢
    rw [validLoop_unit u _ hidx hlt, ih, List.length_append, Nat.add_assoc]
    rw [List.length_append] at hidx
    omega

/-- The bytes of a character that is cut off are read, and then what is behind the buffer. -/
theorem validLoop_cutOff {s : List Byte} (hidx : idx + s.length = bufSize) (hlt : bufSize < 2 ^ 32)
    (h : CutOff idx s) : litIsValidCesu8Loop bufSize idx s = none := by
  obtain ⟨c, t, extra, rfl, hlead, hlen, hcont, hend⟩ := h
  obtain ⟨h1, h2, h3⟩ := lead_masks c
  rw [List.length_cons] at hidx
  cases hlead with
  | inl htwo =>
    obtain ⟨rfl, hc, hc'⟩ := htwo
    have hnil : t = [] := List.length_eq_zero_iff.mp (by omega)
    have hwrap : ¬bufSize < (idx + 1 + 1) % 2 ^ 32 := by omega
    rw [hnil, litIsValidCesu8Loop.eq_def]
    dsimp only
    rw [if_neg (by rw [h1]; omega), if_pos (h2.mpr ⟨hc, hc'⟩), if_neg hwrap]
  | inr hthree =>
    obtain ⟨rfl, hc, hc'⟩ := hthree
    have hwrap : ¬bufSize < (idx + 1 + 2) % 2 ^ 32 := by omega
    rw [litIsValidCesu8Loop.eq_def]
    dsimp only
    rw [if_neg (by rw [h1]; omega), if_neg (by rw [h2]; omega), if_pos (h3.mpr ⟨hc, hc'⟩), if_neg hwrap]
    cases t with
    | nil => rfl
    | cons b t =>
      have hnil : t = [] := List.length_eq_zero_iff.mp (by rw [List.length_cons] at hlen; omega)
      have hb : Cont b := hcont b List.mem_cons_self
      rw [hnil]
      dsimp only
      rw [if_neg (isExtraByte_cont hb)]

/-- A string begins with a code unit, or with a character that is cut off, or it is rejected. -/
theorem validLoop_cases (c : Byte) (t : List Byte) (hidx : idx + (c :: t).length = bufSize) (hlt : bufSize < 2 ^ 32) :
    (∃ (u : CodeUnit) (r : List Byte), c :: t = encode u.toNat ++ r) ∨ CutOff idx (c :: t) ∨
      litIsValidCesu8Loop bufSize idx (c :: t) = some false := by
  obtain ⟨h1, h2, h3⟩ := lead_masks c
  rw [List.length_cons] at hidx
  by_cases hone : c.toNat < 0x80
  · obtain ⟨u, hu⟩ := exists_codeUnit (Sequence.one hone) (Nat.le_add_left 1 2)
    exact Or.inl ⟨u, t, by rw [hu]; rfl⟩
  by_cases htwo : 0xC0 ≤ c.toNat ∧ c.toNat < 0xE0
  · cases t with
    | nil =>
      by_cases hend : 2 ^ 32 ≤ idx + 1 + 1
      · exact Or.inr (Or.inl ⟨c, [], 1, rfl, Or.inl ⟨rfl, htwo⟩, by decide, by simp, hend⟩)
      · refine Or.inr (Or.inr ?_)
        rw [List.length_nil] at hidx
        have hover : bufSize < (idx + 1 + 1) % 2 ^ 32 := by omega
        rw [litIsValidCesu8Loop.eq_def]
        dsimp only
        rw [if_neg (by rw [h1]; omega), if_pos (h2.mpr htwo), if_pos hover]
    | cons b t =>
      by_cases hb : Cont b ∧ 0xC2 ≤ c.toNat
      · obtain ⟨u, hu⟩ := exists_codeUnit (Sequence.two hb.2 htwo.2 hb.1) (Nat.le_add_left 2 1)
        exact Or.inl ⟨u, t, by rw [hu]; rfl⟩
      · refine Or.inr (Or.inr ?_)
        rw [List.length_cons] at hidx
        have hroom : ¬bufSize < (idx + 1 + 1) % 2 ^ 32 := by omega
        rw [litIsValidCesu8Loop.eq_def]
        dsimp only
        rw [if_neg (by rw [h1]; omega), if_pos (h2.mpr htwo), if_neg hroom]
        by_cases hcont : Cont b
        · rw [if_neg (isExtraByte_cont hcont), if_pos]
          rw [toNat_two htwo hcont]
          by_contra hlow
          exact hb ⟨hcont, by omega⟩
        · rw [if_pos (not_isExtraByte hcont)]
  by_cases hthree : 0xE0 ≤ c.toNat ∧ c.toNat < 0xF0
  · cases t with
    | nil =>
      by_cases hend : 2 ^ 32 ≤ idx + 1 + 2
      · exact Or.inr (Or.inl ⟨c, [], 2, rfl, Or.inr ⟨rfl, hthree⟩, by decide, by simp, hend⟩)
      · refine Or.inr (Or.inr ?_)
        rw [List.length_nil] at hidx
        have hover : bufSize < (idx + 1 + 2) % 2 ^ 32 := by omega
        rw [litIsValidCesu8Loop.eq_def]
        dsimp only
        rw [if_neg (by rw [h1]; omega), if_neg (by rw [h2]; omega), if_pos (h3.mpr hthree), if_pos hover]
    | cons b t =>
      cases t with
      | nil =>
        rw [List.length_singleton] at hidx
        by_cases hend : 2 ^ 32 ≤ idx + 1 + 2
        · by_cases hb : Cont b
          · refine Or.inr (Or.inl ⟨c, [b], 2, rfl, Or.inr ⟨rfl, hthree⟩, Nat.lt_succ_self 1, ?_, hend⟩)
            intro x hx
            rw [List.mem_singleton.mp hx]
            exact hb
          · refine Or.inr (Or.inr ?_)
            have hroom : ¬bufSize < (idx + 1 + 2) % 2 ^ 32 := by omega
            rw [litIsValidCesu8Loop.eq_def]
            dsimp only
            rw [if_neg (by rw [h1]; omega), if_neg (by rw [h2]; omega), if_pos (h3.mpr hthree), if_neg hroom,
              if_pos (not_isExtraByte hb)]
        · refine Or.inr (Or.inr ?_)
          have hover : bufSize < (idx + 1 + 2) % 2 ^ 32 := by omega
          rw [litIsValidCesu8Loop.eq_def]
          dsimp only
          rw [if_neg (by rw [h1]; omega), if_neg (by rw [h2]; omega), if_pos (h3.mpr hthree), if_pos hover]
      | cons d t =>
        by_cases hbd : Cont b ∧ Cont d ∧ (c.toNat = 0xE0 → 0xA0 ≤ b.toNat)
        · obtain ⟨u, hu⟩ := exists_codeUnit (Sequence.three hthree.1 hthree.2 hbd.1 hbd.2.1 hbd.2.2) (Nat.le_refl 3)
          exact Or.inl ⟨u, t, by rw [hu]; rfl⟩
        · refine Or.inr (Or.inr ?_)
          rw [List.length_cons, List.length_cons] at hidx
          have hroom : ¬bufSize < (idx + 1 + 2) % 2 ^ 32 := by omega
          rw [litIsValidCesu8Loop.eq_def]
          dsimp only
          rw [if_neg (by rw [h1]; omega), if_neg (by rw [h2]; omega), if_pos (h3.mpr hthree), if_neg hroom]
          by_cases hb : Cont b
          · rw [if_neg (isExtraByte_cont hb)]
            by_cases hd : Cont d
            · rw [if_neg (isExtraByte_cont hd), if_pos]
              rw [toNat_three hthree hb hd]
              by_contra hlow
              exact hbd ⟨hb, hd, by omega⟩
            · rw [if_pos (not_isExtraByte hd)]
          · rw [if_pos (not_isExtraByte hb)]
  · refine Or.inr (Or.inr ?_)
    rw [litIsValidCesu8Loop.eq_def]
    dsimp only
    rw [if_neg (by rw [h1]; exact hone), if_neg (by rw [h2]; exact htwo), if_neg (by rw [h3]; exact hthree)]

end

/-- Code units, and then nothing, or a character that is cut off, or something that is rejected. -/
theorem valid_cases {bufSize : Nat} (hlt : bufSize < 2 ^ 32) (n : Nat) (us : List CodeUnit) (r : List Byte)
    (hn : r.length ≤ n) (hidx : (cesu8 us).length + r.length = bufSize) :
    (∃ vs, cesu8 us ++ r = cesu8 vs) ∨ EndsInside (cesu8 us ++ r) ∨
      litIsValidCesu8Loop bufSize 0 (cesu8 us ++ r) = some false := by
  induction n generalizing us r with
  | zero =>
    have hnil : r = [] := List.length_eq_zero_iff.mp (by omega)
    exact Or.inl ⟨us, by rw [hnil, List.append_nil]⟩
  | succ n ih =>
    cases r with
    | nil => exact Or.inl ⟨us, List.append_nil _⟩
    | cons c t =>
      cases validLoop_cases c t hidx hlt with
      | inl hunit =>
        obtain ⟨u, r, hr⟩ := hunit
        have hpos := length_encode_pos u.toNat
        have hsnoc : cesu8 (us ++ [u]) = cesu8 us ++ encode u.toNat := by
          rw [cesu8_append, cesu8_cons, cesu8_nil, List.append_nil]
        have hlen := congrArg List.length hr
        rw [List.length_append] at hlen
        have hrest := ih (us ++ [u]) r (by omega) (by rw [hsnoc, List.length_append]; omega)
        rw [hsnoc, List.append_assoc, ← hr] at hrest
        exact hrest
      | inr hrest =>
        cases hrest with
        | inl hcut => exact Or.inr (Or.inl ⟨us, c :: t, rfl, hcut⟩)
        | inr hfalse =>
          refine Or.inr (Or.inr ?_)
          rw [validLoop_cesu8 us _ (by rw [List.length_append]; omega) hlt, Nat.zero_add, hfalse]

theorem valid_cesu8 {us : List CodeUnit} (h : (cesu8 us).length < 2 ^ 32) :
    litIsValidCesu8String (cesu8 us) = some true := by
  have hloop := @validLoop_cesu8 (cesu8 us).length 0 us [] (by rw [List.append_nil, Nat.zero_add]) h
  rw [List.append_nil] at hloop
  rw [litIsValidCesu8String, hloop]
  rfl

theorem valid_endsInside {s : List Byte} (hlt : s.length < 2 ^ 32) (h : EndsInside s) :
    litIsValidCesu8String s = none := by
  obtain ⟨us, r, rfl, hcut⟩ := h
  have hlen := hlt
  rw [List.length_append] at hlen
  rw [litIsValidCesu8String, validLoop_cesu8 us r (Nat.zero_add _) hlt, Nat.zero_add]
  exact validLoop_cutOff (List.length_append).symm hlt hcut

/-- The validator decides whether a string is a concatenation of encodings of code units. -/
def Accepts (s : List Byte) : Prop :=
  ∃ valid, litIsValidCesu8String s = some valid ∧ (valid = true ↔ ∃ us : List CodeUnit, s = us.flatMap litCodeUnitToUtf8)

theorem accepts_iff {s : List Byte} (hlt : s.length < 2 ^ 32) : Accepts s ↔ ¬EndsInside s := by
  constructor
  · intro haccepts hinside
    obtain ⟨valid, hvalid, _⟩ := haccepts
    rw [valid_endsInside hlt hinside] at hvalid
    cases hvalid
  · intro hinside
    cases valid_cases hlt s.length [] s (Nat.le_refl _) (Nat.zero_add _) with
    | inl hunits =>
      obtain ⟨us, hus⟩ := hunits
      rw [cesu8_nil, List.nil_append] at hus
      refine ⟨true, ?_, iff_of_true rfl ⟨us, ?_⟩⟩
      · rw [hus]
        exact valid_cesu8 (by rw [← hus]; exact hlt)
      · rw [flatMap_litCodeUnitToUtf8, hus]
    | inr hrest =>
      cases hrest with
      | inl hcut => exact absurd hcut hinside
      | inr hfalse =>
        refine ⟨false, hfalse, iff_of_false Bool.false_ne_true ?_⟩
        intro hunits
        obtain ⟨us, hus⟩ := hunits
        rw [flatMap_litCodeUnitToUtf8] at hus
        have htrue := @valid_cesu8 us (by rw [← hus]; exact hlt)
        rw [← hus] at htrue
        have hfalse' : litIsValidCesu8String s = some false := hfalse
        rw [htrue] at hfalse'
        cases hfalse'

end Strings
end JJS
