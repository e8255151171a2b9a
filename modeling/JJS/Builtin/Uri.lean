import JJS.Builtin.Global

/-!
# JJS.Builtin.Uri

What the encoders and decoders of URIs and of legacy escapes compute. The encoders escape the UTF-8 encoding of the
string, the decoders accept texts whose escapes spell characters, and decoding undoes encoding.

The decoders also accept four bytes for a character that three bytes can hold, since the validator of UTF-8 does
(`uriExact_iff`).
-/

namespace JJS
namespace Builtin
namespace Global

open Utf8 Lit Strings

/-! ## Encoding -/

theorem byteToHex_eq (b : Byte) : byteToHex b.toNat = Percent.escape b := by
  have key : ∀ b : Byte, byteToHex b.toNat = Percent.escape b := by decide +kernel
  exact key b

/-- The bytes that are not escaped. -/
def UriSet.keep (set : UriSet) (b : Byte) : Bool := characterIsIn b.toNat set.bitset

theorem keep_ascii (set : UriSet) (b : Byte) (h : set.keep b = true) : b.toNat < 0x80 := by
  have key : ∀ b : Byte, UriSet.keep .uri b = true ∨ UriSet.keep .component b = true → b.toNat < 0x80 := by decide +kernel
  cases set with
  | uri => exact key b (.inl h)
  | component => exact key b (.inr h)

theorem keep_sign (set : UriSet) : set.keep Percent.sign = false := by
  cases set with
  | uri => decide
  | component => decide

theorem encodeOctets_eq (set : UriSet) (c : Point) : encodeOctets set.bitset c.encode = Percent.encode set.keep c.encode := by
  have hcharacter : ∀ octets, encodeOctets set.bitset octets = Percent.encodeCharacter set.keep octets := by
    intro octets
    have hescape : (octets.flatMap fun octet => byteToHex octet.toNat) = octets.flatMap Percent.escape :=
      List.flatMap_congr fun b _ => byteToHex_eq b
    cases octets with
    | nil => rfl
    | cons b octets =>
      cases octets with
      | nil =>
        show (if characterIsIn b.toNat set.bitset then [b] else byteToHex b.toNat) = Percent.encodeByte set.keep b
        rw [byteToHex_eq]
        rfl
      | cons c octets => exact hescape
  rw [hcharacter, Percent.encodeCharacter_eq (keep_ascii set)]

/-- What the encoder returns for a string without lone surrogates. -/
def uriText (set : UriSet) (cs : List Point) : List Byte := Percent.encode set.keep (utf8 cs)

theorem uriText_cons (set : UriSet) (c : Point) (cs : List Point) :
    uriText set (c :: cs) = encodeOctets set.bitset c.encode ++ uriText set cs := by
  rw [uriText, utf8_cons, Percent.encode_append, encodeOctets_eq]
  rfl

theorem encodeUriLoop_eq (set : UriSet) {steps : Nat} {us : List CodeUnit} (hsteps : (cesu8 us).length ≤ steps) :
    encodeUriLoop set.bitset steps (cesu8 us) =
      if scalars us = points us then .ok (uriText set (points us)) else .error .unicodeSurrogatePairMissing := by
  generalize hcs : points us = cs
  induction cs generalizing us steps with
  | nil =>
    have hus := points_nil hcs
    have hscalars : scalars us = [] := by rw [scalars, hcs]; rfl
    rw [hscalars, if_pos rfl, hus, cesu8_nil, encodeUriLoop]
    rfl
  | cons c cs ih =>
    obtain ⟨hscalar, hlone⟩ := readPaired_points hcs
    have hne : cesu8 us ≠ [] := by
      intro hnil
      cases us with
      | nil => cases hcs
      | cons u us => exact cesu8_ne_nil (List.cons_ne_nil u us) hnil
    have hpos := List.length_pos_iff.mpr hne
    obtain ⟨b, s, hs⟩ := List.exists_cons_of_ne_nil hne
    obtain ⟨steps, rfl⟩ : ∃ n, steps = n + 1 := ⟨steps - 1, by omega⟩
    by_cases hc : IsScalar c
    · obtain ⟨cp, vs, hread, hcp, hvs⟩ := hscalar hc
      have hle : cp.toNat ≤ 0x10FFFF := by
        have hlt := c.isLt
        omega
      have hencode : litCodePointToUtf8 cp = some c.encode := by
        rw [litCodePointToUtf8_eq hle, hcp]
        rfl
      have hpoints : points us = c :: points vs := by rw [hcs, hvs]
      have hrest := length_rest hpoints
      have hstep : encodeUriLoop set.bitset (steps + 1) (cesu8 us) =
          (encodeUriLoop set.bitset steps (cesu8 vs)).bind fun rest =>
            .ok (encodeOctets set.bitset c.encode ++ rest) := by
        rw [hs] at hread ⊢
        rw [encodeUriLoop, hread]
        dsimp only
        rw [hencode]
        rfl
      have hsame : (c :: scalars vs = c :: cs) ↔ (scalars vs = cs) := by
        constructor
        · intro h
          exact (List.cons.inj h).2
        · intro h
          rw [h]
      rw [hstep, ih (by omega) hvs, scalars_cons hpoints hc, if_congr hsame rfl rfl, uriText_cons]
      split
      · rfl
      · rfl
    · have hnone := hlone hc
      rw [hs] at hnone ⊢
      rw [encodeUriLoop, hnone, scalars_lone hcs hc, if_neg (List.cons_ne_nil c cs).symm]

/-- The encoder escapes the UTF-8 encoding, and fails at a lone surrogate. -/
theorem encodeUriHelper_eq (set : UriSet) (us : List CodeUnit) :
    encodeUriHelper set.bitset (cesu8 us) =
      if scalars us = points us then .ok (uriText set (points us)) else .error .unicodeSurrogatePairMissing :=
  encodeUriLoop_eq set (Nat.le_refl _)

/-! ## The loop of the decoder -/

theorem decodeOctets_length {count : Nat} {input octets rest : List Byte}
    (h : decodeOctets count input = some (octets, rest)) : rest.length ≤ input.length := by
  induction count generalizing input octets with
  | zero =>
    rw [decodeOctets] at h
    cases h
    exact Nat.le_refl _
  | succ count ih =>
    cases input with
    | nil => cases h
    | cons char input =>
      rw [decodeOctets] at h
      split at h
      · cases h
      · split at h
        · cases h
        · dsimp only at h
          split at h
          · cases h
          · obtain ⟨p, hp, heq⟩ := Option.bind_eq_some_iff.mp h
            obtain ⟨octets', rest'⟩ := p
            cases heq
            have hle := ih hp
            rw [List.length_drop] at hle
            rw [List.length_cons]
            omega

/-- The input goes on behind the percent sign. -/
theorem decodeEscape_length {bitset input chars rest : List Byte} (h : decodeEscape bitset input = .ok (chars, rest)) :
    rest.length ≤ input.length := by
  rw [decodeEscape] at h
  split at h
  · cases h
  · split at h
    · split at h
      · cases h
        exact Nat.le_refl _
      · cases h
        rw [List.length_drop]
        omega
    · rw [decodeMultibyte] at h
      split at h
      · cases h
      · split at h
        · cases h
        · rename_i hoctets
          dsimp only at h
          split at h
          · cases h
          · split at h
            · cases h
            · split at h
              · cases h
              · cases h
                have hle := decodeOctets_length hoctets
                rw [List.length_drop] at hle
                omega

/-- The number of steps does not matter. -/
theorem decodeUriLoop_steps (bitset : List Byte) {m n : Nat} {input : List Byte} (hm : input.length ≤ m)
    (hn : input.length ≤ n) : decodeUriLoop bitset m input = decodeUriLoop bitset n input := by
  induction m generalizing n input with
  | zero =>
    cases input with
    | nil => rw [decodeUriLoop, decodeUriLoop]
    | cons char input => cases hm
  | succ m ih =>
    cases input with
    | nil => rw [decodeUriLoop, decodeUriLoop]
    | cons char input =>
      rw [List.length_cons] at hm hn
      obtain ⟨n, rfl⟩ : ∃ k, n = k + 1 := ⟨n - 1, by omega⟩
      rw [decodeUriLoop, decodeUriLoop]
      split
      · rw [ih (n := n) (by omega) (by omega)]
      · cases hescape : decodeEscape bitset input with
        | error e => rfl
        | ok p =>
          obtain ⟨chars, rest⟩ := p
          have hle := decodeEscape_length hescape
          show (decodeUriLoop bitset m rest).bind _ = (decodeUriLoop bitset n rest).bind _
          rw [ih (n := n) (by omega) (by omega)]

section

variable (bitset : List Byte)

theorem decodeUri_plain {b : Byte} (h : b ≠ Percent.sign) (input : List Byte) :
    decodeUriHelper bitset (b :: input) = (decodeUriHelper bitset input).map (b :: ·) := by
  rw [decodeUriHelper, List.length_cons, decodeUriLoop, if_pos (show b ≠ 0x25#8 from h), decodeUriHelper]
  cases decodeUriLoop bitset input.length input with
  | error e => rfl
  | ok rest => rfl

theorem decodeUri_sign (input : List Byte) :
    decodeUriHelper bitset (Percent.sign :: input) =
      (decodeEscape bitset input).bind fun p => (decodeUriHelper bitset p.2).map (p.1 ++ ·) := by
  rw [decodeUriHelper, List.length_cons, decodeUriLoop, if_neg (show ¬Percent.sign ≠ 0x25#8 from fun h => h rfl)]
  cases hescape : decodeEscape bitset input with
  | error e => rfl
  | ok p =>
    obtain ⟨chars, rest⟩ := p
    have hle := decodeEscape_length hescape
    have hsteps : decodeUriLoop bitset input.length rest = decodeUriHelper bitset rest :=
      decodeUriLoop_steps bitset hle (Nat.le_refl _)
    show (decodeUriLoop bitset input.length rest).bind _ = _
    rw [hsteps, Except.bind]
    cases decodeUriHelper bitset rest with
    | error e => rfl
    | ok rest => rfl

end

end Global
end Builtin
end JJS
