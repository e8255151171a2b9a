import JJS.Builtin.Escape
import JJS.Builtin.UriDecode

/-!
# JJS.Builtin.UriExact

The encoders and decoders of strings as inverses, and the texts that the decoders of URIs accept although an escape in
them spells an overlong form.
-/

namespace JJS
namespace Builtin
namespace Global

open Utf8 Lit Strings

/-! ## The result is a string -/

/-- Characters of ASCII at the beginning of a string are code units of it. -/
theorem cesu8_ascii_prefix {text r : List Byte} {us : List CodeUnit} (hascii : ∀ b ∈ text, b.toNat < 0x80)
    (h : text ++ r = cesu8 us) : ∃ us₁ us₂, us = us₁ ++ us₂ ∧ text = cesu8 us₁ ∧ r = cesu8 us₂ := by
  induction text generalizing us with
  | nil => exact ⟨[], us, rfl, rfl, h⟩
  | cons b text ih =>
    obtain ⟨hb, hascii⟩ := List.forall_mem_cons.mp hascii
    cases us with
    | nil => cases h
    | cons u us =>
      rw [cesu8_cons] at h
      obtain ⟨hencode, hrest⟩ : (unitPoint u).encode = [b] ∧ cesu8 us = text ++ r := Point.encode_of_ascii hb h
      obtain ⟨us₁, us₂, hus, htext, hr⟩ := ih hascii hrest.symm
      refine ⟨u :: us₁, us₂, by rw [hus]; rfl, ?_, hr⟩
      rw [cesu8_cons, ← unitPoint_encode, hencode, htext]
      rfl

/-- Bytes before the first percent sign are decoded to themselves. -/
theorem pieces_plain (set : UriSet) {bytes r : List Byte} {pieces : List Piece} (hbytes : ∀ b ∈ bytes, b ≠ Percent.sign)
    (h : Parses Validated (bytes ++ r) pieces) :
    ∃ rest, Parses Validated r rest ∧ pieces.flatMap (Piece.output set) = bytes ++ rest.flatMap (Piece.output set) := by
  induction bytes generalizing pieces with
  | nil => exact ⟨pieces, h, rfl⟩
  | cons b bytes ih =>
    obtain ⟨hb, hbytes⟩ := List.forall_mem_cons.mp hbytes
    obtain ⟨hgood, hinput⟩ := h
    cases pieces with
    | nil => cases hinput
    | cons p pieces =>
      obtain ⟨hp, hpieces⟩ := List.forall_mem_cons.mp hgood
      rw [List.flatMap_cons] at hinput
      have hplain : (Piece.plain b).Good Validated := hb
      obtain ⟨hpb, hrest⟩ := hp.append_inj hplain (show p.input ++ _ = (Piece.plain b).input ++ (bytes ++ r) from hinput)
      obtain ⟨rest, hparses, houtput⟩ := ih hbytes ⟨hpieces, hrest⟩
      refine ⟨rest, hparses, ?_⟩
      rw [List.flatMap_cons, hpb, houtput]
      rfl

theorem encode_ne_sign {u : CodeUnit} (h : u ≠ 0x25#16) : ∀ b ∈ encode u.toNat, b ≠ Percent.sign := by
  intro b hb hsign
  rw [hsign] at hb
  cases Percent.utf8_cases (unitPoint u) with
  | inl hone =>
    obtain ⟨a, ha, -⟩ := hone
    have hvalue := (unitPoint u).value_encode
    rw [ha] at hvalue
    rw [unitPoint_encode] at ha
    rw [ha] at hb
    rw [← List.mem_singleton.mp hb] at hvalue
    exact h (BitVec.eq_of_toNat_eq hvalue.symm)
  | inr hhigh =>
    have hlarge := hhigh Percent.sign hb
    exact absurd hlarge (by decide)

/-- The result of the decoder is a string. -/
theorem output_cesu8 (set : UriSet) {us : List CodeUnit} {pieces : List Piece} (h : Parses Validated (cesu8 us) pieces) :
    ∃ vs, pieces.flatMap (Piece.output set) = cesu8 vs := by
  induction hlen : us.length using Nat.strong_induction_on generalizing us pieces with
  | _ n ih =>
    cases us with
    | nil =>
      have hnil : pieces = [] := h.unique ⟨List.forall_mem_nil _, rfl⟩
      rw [hnil]
      exact ⟨[], rfl⟩
    | cons u us =>
      rw [List.length_cons] at hlen
      by_cases hu : u = 0x25#16
      · -- an escape is a part, and its digits are code units
        cases pieces with
        | nil =>
          have hinput := h.input_eq
          exact absurd hinput.symm (cesu8_ne_nil (List.cons_ne_nil u us))
        | cons p pieces =>
          obtain ⟨hp, hpieces⟩ := List.forall_mem_cons.mp h.good
          have hinput := h.input_eq
          rw [List.flatMap_cons] at hinput
          cases p with
          | plain b =>
            rw [hu] at hinput
            exact absurd (List.cons.inj hinput).1 hp
          | spelled c octets spelling =>
            have hascii := hp.2.2.ascii
            obtain ⟨us₁, us₂, hus, hspelling, hrest⟩ := cesu8_ascii_prefix hascii hinput
            have hspelling : spelling = cesu8 us₁ := hspelling
            have hne : us₁ ≠ [] := by
              intro hnil
              have hinput_ne := hp.input_ne_nil
              rw [hnil] at hspelling
              exact hinput_ne hspelling
            have hshort : us₂.length < n := by
              have hpos := List.length_pos_iff.mpr hne
              have hsum := congrArg List.length hus
              rw [List.length_cons, List.length_append] at hsum
              omega
            obtain ⟨vs, hvs⟩ := ih us₂.length hshort ⟨hpieces, hrest⟩ rfl
            rw [List.flatMap_cons, hvs, Piece.output]
            split
            · exact ⟨us₁ ++ vs, by rw [cesu8_append, hspelling]⟩
            · exact ⟨c.units ++ vs, (cesu8_append _ _).symm⟩
      · rw [cesu8_cons] at h
        obtain ⟨rest, hparses, houtput⟩ := pieces_plain set (encode_ne_sign hu) h
        obtain ⟨vs, hvs⟩ := ih us.length (by omega) hparses rfl
        exact ⟨u :: vs, by rw [houtput, hvs, cesu8_cons]⟩

/-! ## Exactness -/

/-- The decoder accepts the string just when its escapes spell the shortest forms of code points that are no surrogates,
and its result is a string with these code points, which is returned again when it is encoded and decoded. -/
def DecodesExactly (set : UriSet) (us : List CodeUnit) : Prop :=
  ((∃ r, decodeUriHelper set.bitset (cesu8 us) = .ok r) ↔ ∃ pieces, Parses Shortest (cesu8 us) pieces) ∧
    ∀ r, decodeUriHelper set.bitset (cesu8 us) = .ok r →
      ∃ pieces vs, Parses Shortest (cesu8 us) pieces ∧ r = pieces.flatMap (Piece.output set) ∧ r = cesu8 vs ∧
        (Paired vs → ∃ t, encodeUriHelper set.bitset r = .ok t ∧ decodeUriHelper set.bitset t = .ok r)

/-- The encoder fails at a lone surrogate and is undone by the decoder, the decoder is exact, and `unescape` undoes
`escape`. -/
def UriExact (set : UriSet) (us : List CodeUnit) : Prop :=
  ((∃ t, encodeUriHelper set.bitset (cesu8 us) = .ok t) ↔ Paired us) ∧
    (∀ t, encodeUriHelper set.bitset (cesu8 us) = .ok t → decodeUriHelper set.bitset t = .ok (cesu8 us)) ∧
    DecodesExactly set us ∧
    ∃ t, escape (cesu8 us) = some t ∧ unescape t = some (cesu8 us)

/-- All the escapes of a text spell code points that are no surrogates, and some of them four bytes for a code point
that three bytes can hold. -/
def SpellsOverlong (s : List Byte) : Prop :=
  ∃ pieces, Parses Validated s pieces ∧ ∃ c octets spelling, Piece.spelled c octets spelling ∈ pieces ∧ Overlong octets

theorem Parses.shortest {s : List Byte} {pieces : List Piece} (h : Parses Validated s pieces) (hnot : ¬SpellsOverlong s) :
    Parses Shortest s pieces where
  good := by
    intro p hp
    have hgood := h.good p hp
    cases p with
    | plain b => exact hgood
    | spelled c octets spelling =>
      obtain ⟨hc, ⟨hseq, hvalue⟩, hspells⟩ := hgood
      refine ⟨hc, ?_, hspells⟩
      cases sequence_or_overlong hseq with
      | inl hshort =>
        have hencode := hshort.encode_value.2
        rw [hvalue] at hencode
        exact hencode.symm
      | inr hlong => exact absurd ⟨pieces, h, c, octets, spelling, hp, hlong⟩ hnot
  input_eq := h.input_eq

/-- A text with an overlong form is accepted and should not be. -/
theorem not_decodesExactly {set : UriSet} {us : List CodeUnit} (h : SpellsOverlong (cesu8 us)) : ¬DecodesExactly set us := by
  obtain ⟨pieces, hparses, c, octets, spelling, hmem, hlong⟩ := h
  intro hexact
  have haccepted := (decodeUri_iff set (cesu8 us) _).mpr ⟨pieces, hparses, rfl⟩
  obtain ⟨pieces', hparses'⟩ := hexact.1.mp ⟨_, haccepted⟩
  have hsame := hparses.unique hparses'.mono
  rw [hsame] at hmem
  have hshort : octets = c.encode := (hparses'.good _ hmem).2.1
  rw [hshort] at hlong
  exact (sequence_of_overlong hlong).2 c.sequence

theorem decodesExactly_of_not {set : UriSet} {us : List CodeUnit} (h : ¬SpellsOverlong (cesu8 us)) :
    DecodesExactly set us := by
  constructor
  · constructor
    · intro haccepted
      obtain ⟨r, hr⟩ := haccepted
      obtain ⟨pieces, hparses, -⟩ := (decodeUri_iff set _ _).mp hr
      exact ⟨pieces, hparses.shortest h⟩
    · intro hparses
      obtain ⟨pieces, hparses⟩ := hparses
      exact ⟨_, (decodeUri_iff set _ _).mpr ⟨pieces, hparses.mono, rfl⟩⟩
  · intro r hr
    obtain ⟨pieces, hparses, houtput⟩ := (decodeUri_iff set _ _).mp hr
    obtain ⟨vs, hvs⟩ := output_cesu8 set hparses
    rw [← houtput] at hvs
    refine ⟨pieces, vs, hparses.shortest h, houtput, hvs, ?_⟩
    intro hpaired
    obtain ⟨t, ht⟩ := (encode_uri_iff set vs).mpr hpaired
    rw [hvs]
    exact ⟨t, ht, decode_encode_uri set ht⟩

/-- Encoders and decoders are inverse to each other and exact, for strings without overlong forms in their escapes. -/
theorem uriExact_iff (set : UriSet) (us : List CodeUnit) : UriExact set us ↔ ¬SpellsOverlong (cesu8 us) := by
  constructor
  · intro h hlong
    exact not_decodesExactly hlong h.2.2.1
  · intro h
    exact ⟨encode_uri_iff set us, fun t ht => decode_encode_uri set ht, decodesExactly_of_not h, unescape_escape us⟩

/-- The string `%F0%82%82%AC`. -/
def overlongEuro : List CodeUnit :=
  [0x25#16, 0x46#16, 0x30#16, 0x25#16, 0x38#16, 0x32#16, 0x25#16, 0x38#16, 0x32#16, 0x25#16, 0x41#16, 0x43#16]

/-- The escapes spell the euro sign in four bytes, which the decoder accepts. -/
theorem overlongEuro_accepted : ¬UriExact .component overlongEuro := by
  intro h
  refine not_decodesExactly ?_ h.2.2.1
  have hspells : Percent.Spells [0xf0#8, 0x82#8, 0x82#8, 0xac#8] (cesu8 overlongEuro) :=
    Percent.spells_escapes [0xf0#8, 0x82#8, 0x82#8, 0xac#8]
  have hlong : Overlong [0xf0#8, 0x82#8, 0x82#8, 0xac#8] := by
    refine ⟨rfl, ?_, ?_, ⟨?_, ?_⟩, ?_, ?_⟩
    all_goals decide
  have hgood : (Piece.spelled ⟨0x20ac, by omega⟩ [0xf0#8, 0x82#8, 0x82#8, 0xac#8] (cesu8 overlongEuro)).Good Validated :=
    ⟨by decide, ⟨(sequence_of_overlong hlong).1, rfl⟩, hspells⟩
  exact ⟨[.spelled ⟨0x20ac, by omega⟩ _ _], ⟨List.forall_mem_cons.mpr ⟨hgood, List.forall_mem_nil _⟩, List.append_nil _⟩,
    _, _, _, List.mem_cons_self, hlong⟩

end Global
end Builtin
end JJS
