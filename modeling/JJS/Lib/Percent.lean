import JJS.Lib.Ecma404

/-!
# JJS.Lib.Percent

Percent-encoding of bytes: an escape is a percent sign and the two digits of a byte. `encode keep` leaves the bytes of
`keep` as they are and escapes the others; `decode` replaces escapes by their bytes and leaves everything else as it is.
Decoding undoes encoding when the percent sign is not kept (`decode_encode`). `Spells` are the escapes of bytes with digits of either case.
-/

namespace Percent

open Utf8 (Byte)
open Ecma404 (hexDigit)

/-- The percent sign. -/
def sign : Byte := 0x25#8

/-- The digit of a number below 16, in upper case. -/
def digit (n : Nat) : Byte := BitVec.ofNat 8 (if n ≤ 9 then 0x30 + n else 0x37 + n)

/-- The escape of a byte. -/
def escape (b : Byte) : List Byte := [sign, digit (b.toNat / 16), digit (b.toNat % 16)]

/-- The byte that two digits spell. -/
def octet (high low : Byte) : Option Byte := do
  let h ← hexDigit high
  let l ← hexDigit low
  some (BitVec.ofNat 8 (h * 16 + l))

/-- What is left of a text when the escapes are replaced. -/
def decode : List Byte → Option (List Byte)
  | [] => some []
  | b :: s =>
    if b = sign then
      match s with
      | high :: low :: r => do
        let o ← octet high low
        let t ← decode r
        some (o :: t)
      | _ => none
    else (decode s).map (b :: ·)

/-- A byte as it is, or its escape. -/
def encodeByte (keep : Byte → Bool) (b : Byte) : List Byte := if keep b then [b] else escape b

def encode (keep : Byte → Bool) (bs : List Byte) : List Byte := bs.flatMap (encodeByte keep)

variable {keep : Byte → Bool}

theorem encode_nil : encode keep [] = [] := rfl

theorem encode_cons (b : Byte) (bs : List Byte) : encode keep (b :: bs) = encodeByte keep b ++ encode keep bs := rfl

theorem encode_append (bs cs : List Byte) : encode keep (bs ++ cs) = encode keep bs ++ encode keep cs :=
  List.flatMap_append

/-! ## Digits -/

theorem hexDigit_digit {n : Nat} (h : n < 16) : hexDigit (digit n) = some n := by
  have key : ∀ n : Fin 16, hexDigit (digit n.val) = some n.val := by decide
  exact key ⟨n, h⟩

/-- The digits are ASCII, and none of them is a percent sign or a letter behind `F`. -/
theorem digit_bounds {n : Nat} (h : n < 16) : 0x30 ≤ (digit n).toNat ∧ (digit n).toNat ≤ 0x46 := by
  have key : ∀ n : Fin 16, 0x30 ≤ (digit n.val).toNat ∧ (digit n.val).toNat ≤ 0x46 := by decide
  exact key ⟨n, h⟩

theorem octet_digits (b : Byte) : octet (digit (b.toNat / 16)) (digit (b.toNat % 16)) = some b := by
  have hlt := b.isLt
  have hsum : b.toNat / 16 * 16 + b.toNat % 16 = b.toNat := Nat.div_add_mod' _ _
  rw [octet, hexDigit_digit (by omega), hexDigit_digit (Nat.mod_lt _ (by decide)), Option.bind_eq_bind, Option.bind_some,
    Option.bind_some, hsum, BitVec.ofNat_toNat, BitVec.setWidth_eq]

/-! ## Decoding -/

theorem decode_escape (b : Byte) (r : List Byte) : decode (escape b ++ r) = (decode r).map (b :: ·) := by
  show decode (sign :: digit (b.toNat / 16) :: digit (b.toNat % 16) :: r) = _
  rw [decode, if_pos rfl, octet_digits, Option.bind_eq_bind, Option.bind_some]
  cases decode r with
  | none => rfl
  | some t => rfl

theorem decode_kept {b : Byte} (h : b ≠ sign) (r : List Byte) : decode (b :: r) = (decode r).map (b :: ·) := by
  cases r with
  | nil => simp [decode, h]
  | cons c r =>
    cases r with
    | nil => simp [decode, h]
    | cons d r => rw [decode, if_neg h]

theorem decode_encode_append (hkeep : keep sign = false) (bs r : List Byte) :
    decode (encode keep bs ++ r) = (decode r).map (bs ++ ·) := by
  induction bs with
  | nil =>
    rw [encode_nil, List.nil_append]
    exact Option.map_id'.symm
  | cons b bs ih =>
    have hbyte : ∀ t, decode (encodeByte keep b ++ t) = (decode t).map (b :: ·) := by
      intro t
      rw [encodeByte]
      split
      · rename_i hb
        have hne : b ≠ sign := by
          intro heq
          rw [heq, hkeep] at hb
          cases hb
        exact decode_kept hne t
      · exact decode_escape b t
    rw [encode_cons, List.append_assoc, hbyte, ih, Option.map_map]
    rfl

/-- What is encoded is decoded to what it was. -/
theorem decode_encode (hkeep : keep sign = false) (bs : List Byte) : decode (encode keep bs) = some bs := by
  have h := decode_encode_append hkeep bs []
  rw [List.append_nil] at h
  rw [h, decode, Option.map_some, List.append_nil]

/-! ## Size and characters -/

theorem length_encodeByte (b : Byte) : (encodeByte keep b).length = if keep b then 1 else 3 := by
  rw [encodeByte]
  split
  · rfl
  · rfl

theorem length_encode_le (bs : List Byte) : (encode keep bs).length ≤ bs.length * 3 := by
  induction bs with
  | nil => exact Nat.le_refl 0
  | cons b bs ih =>
    rw [encode_cons, List.length_append, length_encodeByte, List.length_cons]
    split
    · omega
    · omega

theorem encode_ascii (hkeep : ∀ b, keep b = true → b.toNat < 0x80) {bs : List Byte} {b : Byte} (h : b ∈ encode keep bs) :
    b.toNat < 0x80 := by
  obtain ⟨c, -, hb⟩ := List.mem_flatMap.mp h
  have hlt := c.isLt
  rw [encodeByte] at hb
  split at hb
  · rename_i hc
    rw [List.mem_singleton.mp hb]
    exact hkeep c hc
  · have hhigh := digit_bounds (n := c.toNat / 16) (by omega)
    have hlow := digit_bounds (n := c.toNat % 16) (Nat.mod_lt _ (by decide))
    cases hb with
    | head => decide
    | tail _ hb =>
      cases hb with
      | head => omega
      | tail _ hb =>
        rw [List.mem_singleton.mp hb]
        omega

/-! ## Characters -/

/-- A code point is one byte of ASCII or bytes beyond ASCII. -/
theorem utf8_cases (c : Utf8.Point) : (∃ b : Byte, c.encode = [b] ∧ b.toNat < 0x80) ∨ ∀ b ∈ c.encode, 0x80 ≤ b.toNat := by
  have hseq := c.sequence
  generalize c.encode = s at hseq
  cases hseq with
  | @one a ha => exact .inl ⟨a, rfl, ha⟩
  | two h1 h2 hb =>
    obtain ⟨hb, -⟩ := hb
    right
    simp
    omega
  | three h1 h2 hb hc he =>
    obtain ⟨hb, -⟩ := hb
    obtain ⟨hc, -⟩ := hc
    right
    simp
    omega
  | four h1 h2 hb hc hd h0 h4 =>
    obtain ⟨hb, -⟩ := hb
    obtain ⟨hc, -⟩ := hc
    obtain ⟨hd, -⟩ := hd
    right
    simp
    omega

/-- A character of one byte is encoded as that byte, and all bytes of another one are escaped. -/
def encodeCharacter (keep : Byte → Bool) (octets : List Byte) : List Byte :=
  match octets with
  | [b] => encodeByte keep b
  | octets => octets.flatMap escape

/-- If only ASCII is kept, characters are encoded byte by byte. -/
theorem encodeCharacter_eq (hkeep : ∀ b, keep b = true → b.toNat < 0x80) (c : Utf8.Point) :
    encodeCharacter keep c.encode = encode keep c.encode := by
  have hescape : ∀ octets : List Byte, (∀ b ∈ octets, 0x80 ≤ b.toNat) → encode keep octets = octets.flatMap escape := by
    intro octets h
    refine List.flatMap_congr fun b hb => if_neg ?_
    intro hkept
    exact Nat.not_lt.mpr (h b hb) (hkeep b hkept)
  cases utf8_cases c with
  | inl hone =>
    obtain ⟨b, hb, -⟩ := hone
    rw [hb, encode_cons, encode_nil, List.append_nil]
    rfl
  | inr hhigh =>
    unfold encodeCharacter
    split
    · rename_i heq
      rw [heq, encode_cons, encode_nil, List.append_nil]
    · exact (hescape _ hhigh).symm

/-! ## Spellings -/

/-- A text of escapes, and the bytes that they spell. -/
inductive Spells : List Byte → List Byte → Prop where
  | nil : Spells [] []
  | cons {o high low : Byte} {os text : List Byte} : octet high low = some o → Spells os text →
      Spells (o :: os) (sign :: high :: low :: text)

theorem Spells.length {os text : List Byte} (h : Spells os text) : text.length = os.length * 3 := by
  induction h with
  | nil => rfl
  | cons _ _ ih => rw [List.length_cons, List.length_cons, List.length_cons, List.length_cons, ih]; omega

theorem spells_escapes (os : List Byte) : Spells os (os.flatMap escape) := by
  induction os with
  | nil => exact .nil
  | cons o os ih => exact .cons (octet_digits o) ih

/-- Of two spellings that a text begins with, one continues the other. -/
theorem Spells.comparable {os os' text text' r r' : List Byte} (h : Spells os text) (h' : Spells os' text')
    (heq : text ++ r = text' ++ r') : os <+: os' ∨ os' <+: os := by
  induction h generalizing os' text' with
  | nil => exact .inl List.nil_prefix
  | cons ho _ ih =>
    cases h' with
    | nil => exact .inr List.nil_prefix
    | cons ho' h' =>
      simp only [List.cons_append, List.cons.injEq, true_and] at heq
      obtain ⟨rfl, rfl, hrest⟩ := heq
      rw [ho] at ho'
      cases ho'
      cases ih h' hrest with
      | inl hp => exact .inl (List.cons_prefix_cons.mpr ⟨rfl, hp⟩)
      | inr hp => exact .inr (List.cons_prefix_cons.mpr ⟨rfl, hp⟩)

theorem hexDigit_ascii {b : Byte} {d : Nat} (h : hexDigit b = some d) : b ≠ sign ∧ b.toNat < 0x80 ∧ d < 16 := by
  rw [hexDigit] at h
  have hne : ∀ n, b.toNat = n → n ≠ 0x25 → b ≠ sign := by
    intro n hn hnot heq
    rw [heq] at hn
    exact hnot hn.symm
  split at h
  · cases h
    exact ⟨hne _ rfl (by omega), by omega, by omega⟩
  · split at h
    · cases h
      exact ⟨hne _ rfl (by omega), by omega, by omega⟩
    · split at h
      · cases h
        exact ⟨hne _ rfl (by omega), by omega, by omega⟩
      · cases h

/-- The digits of an escape. -/
theorem octet_some {high low o : Byte} (h : octet high low = some o) :
    (high ≠ sign ∧ high.toNat < 0x80) ∧ low ≠ sign ∧ low.toNat < 0x80 := by
  obtain ⟨d, hd, h⟩ := Option.bind_eq_some_iff.mp h
  obtain ⟨e, he, -⟩ := Option.bind_eq_some_iff.mp h
  exact ⟨⟨(hexDigit_ascii hd).1, (hexDigit_ascii hd).2.1⟩, (hexDigit_ascii he).1, (hexDigit_ascii he).2.1⟩

theorem Spells.ascii {os text : List Byte} (h : Spells os text) : ∀ b ∈ text, b.toNat < 0x80 := by
  induction h with
  | nil => exact fun b hb => nomatch hb
  | cons ho _ ih =>
    obtain ⟨⟨-, hhigh⟩, -, hlow⟩ := octet_some ho
    intro b hb
    cases hb with
    | head => decide
    | tail _ hb =>
      cases hb with
      | head => exact hhigh
      | tail _ hb =>
        cases hb with
        | head => exact hlow
        | tail _ hb => exact ih b hb

end Percent
