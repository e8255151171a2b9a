import Mathlib.Data.List.TakeWhile
import JJS.Json.Parse

/-!
# JJS.Json.Lexeme

What the tokens of the parser are. `Lexeme` relates a token to the bytes it is read from, and
`parseNextToken_sound` and `parseNextToken_complete` say that the tokenizer reads just these. Numerals are
the ones of the source, which lets a minus stand without digits after it (`LooseNumeral`).
-/

namespace JJS
namespace Json

open Utf8 OrderedMap Lit Ecma404

/-! ## Strings -/

section

variable {B U s : List Byte}

theorem parseStringLoop_plain {b : Byte} (h1 : 0x20 ≤ b.toNat) (h2 : b.toNat ≠ 0x22) (h3 : b.toNat ≠ 0x5c)
    (h4 : b.toNat < 0xF0) : parseStringLoop B U (b :: s) = parseStringLoop B (U ++ [b]) s := by
  rw [parseStringLoop.eq_def]
  simp only []
  rw [if_neg (by rw [le_toNat (by decide)]; omega), if_neg (by rw [eq_toNat (by decide)]; omega),
    if_neg (by rw [ge_toNat (by decide)]; omega), if_neg (by rw [eq_toNat (by decide)]; omega)]

theorem parseStringLoop_quote : parseStringLoop B U (0x22#8 :: s) = some (B ++ U, s) := by
  rw [parseStringLoop.eq_def]
  simp only []
  rw [if_neg (by decide), if_pos trivial]

theorem parseStringLoop_control {b : Byte} (h : b.toNat < 0x20) : parseStringLoop B U (b :: s) = none := by
  rw [parseStringLoop.eq_def]
  simp only []
  rw [if_pos (by rw [le_toNat (by decide)]; omega)]

theorem parseStringLoop_backslash : parseStringLoop B U (0x5c#8 :: s) =
    match s with
    | [] => none
    | c :: s =>
      match escapedByte c with
      | some e => parseStringLoop (B ++ U ++ [e]) [] s
      | none =>
        if c = 0x75#8 then
          match s with
          | h1 :: h2 :: h3 :: h4 :: s =>
            match litCharHexLookup [h1, h2, h3, h4] 4 with
            | some hex => parseStringLoop (B ++ U ++ litCodePointToCesu8Bytes (BitVec.ofNat 32 hex)) [] s
            | none => none
          | _ => none
        else none := by
  rw [parseStringLoop.eq_def]
  simp only []
  rw [if_neg (by decide), if_neg (by decide), if_neg (by decide)]
  exact if_pos trivial

/-- A character that is no quotation mark, backslash or control character. -/
theorem parseStringLoop_char {c : Point} (h1 : 0x20 ≤ c.val) (h2 : c.val ≠ 0x22) (h3 : c.val ≠ 0x5c) :
    ∃ B' U', parseStringLoop B U (c.encode ++ s) = parseStringLoop B' U' s ∧
      B' ++ U' = B ++ U ++ cesu8 c.units := by
  have hval := c.value_encode
  have hlt := c.isLt
  have hsmall := fun h => (c.cesu8_units h).symm
  have hseq := c.sequence
  generalize c.encode = e at hval hsmall hseq
  cases hseq with
  | @one a ha =>
    rw [value] at hval
    refine ⟨B, U ++ [a], ?_, ?_⟩
    · exact parseStringLoop_plain (by omega) (by omega) (by omega) (by omega)
    · rw [← hsmall (by omega), List.append_assoc]
  | @two a b ha1 ha2 hb =>
    obtain ⟨hb1, hb2⟩ := hb
    rw [value] at hval
    refine ⟨B, U ++ [a] ++ [b], ?_, ?_⟩
    · rw [List.cons_append, parseStringLoop_plain (by omega) (by omega) (by omega) (by omega), List.cons_append,
        parseStringLoop_plain (by omega) (by omega) (by omega) (by omega), List.nil_append]
    · rw [← hsmall (by omega)]
      simp
  | @three a b d ha1 ha2 hb hd he =>
    obtain ⟨hb1, hb2⟩ := hb
    obtain ⟨hd1, hd2⟩ := hd
    rw [value] at hval
    refine ⟨B, U ++ [a] ++ [b] ++ [d], ?_, ?_⟩
    · rw [List.cons_append, parseStringLoop_plain (by omega) (by omega) (by omega) (by omega), List.cons_append,
        parseStringLoop_plain (by omega) (by omega) (by omega) (by omega), List.cons_append,
        parseStringLoop_plain (by omega) (by omega) (by omega) (by omega), List.nil_append]
    · rw [← hsmall (by omega)]
      simp
  | @four a b d e ha1 ha2 hb hd he h0 h4 =>
    have hseq : Sequence 0x81 [a, b, d, e] := .four ha1 ha2 hb hd he (fun h => Nat.le_trans (by decide) (h0 h)) h4
    obtain ⟨cp, hread, hcp⟩ := litReadCodePointFromUtf8_append hseq []
    refine ⟨B ++ U ++ litCodePointToCesu8Bytes cp, [], ?_, ?_⟩
    · simp only [List.cons_append, List.nil_append] at hread ⊢
      rw [parseStringLoop, if_neg (by rw [le_toNat (by decide)]; omega), if_neg (by rw [eq_toNat (by decide)]; omega),
        if_pos (by rw [ge_toNat (by decide)]; omega), hread]
    · rw [litCodePointToCesu8Bytes_units (hcp.trans hval), List.append_nil]

theorem escapedByte_of_mem {b : Byte} {u : CodeUnit} (h : (b, u) ∈ simpleEscapes) :
    ∃ e, escapedByte b = some e ∧ [e] = encode u.toNat := by
  simp only [simpleEscapes, List.mem_cons, Prod.mk.injEq, List.not_mem_nil, or_false] at h
  rcases h with ⟨rfl, rfl⟩ | ⟨rfl, rfl⟩ | ⟨rfl, rfl⟩ | ⟨rfl, rfl⟩ | ⟨rfl, rfl⟩ | ⟨rfl, rfl⟩ | ⟨rfl, rfl⟩ | ⟨rfl, rfl⟩ <;>
    exact ⟨_, rfl, rfl⟩

theorem mem_of_escapedByte {b e : Byte} (h : escapedByte b = some e) :
    b.toNat < 0x80 ∧ ∃ u, (b, u) ∈ simpleEscapes ∧ [e] = encode u.toNat := by
  have hmem : b.toNat < 0x80 ∧ ∃ u, (b, u) ∈ simpleEscapes := by
    unfold escapedByte at h
    split at h
    · rename_i hb
      rcases hb with rfl | rfl | rfl <;> exact ⟨by decide, _, by simp [simpleEscapes]; rfl⟩
    split at h
    · rename_i hb
      exact ⟨by rw [hb]; decide, 0x08#16, by rw [hb]; decide⟩
    split at h
    · rename_i hb
      exact ⟨by rw [hb]; decide, 0x0c#16, by rw [hb]; decide⟩
    split at h
    · rename_i hb
      exact ⟨by rw [hb]; decide, 0x0a#16, by rw [hb]; decide⟩
    split at h
    · rename_i hb
      exact ⟨by rw [hb]; decide, 0x0d#16, by rw [hb]; decide⟩
    split at h
    · rename_i hb
      exact ⟨by rw [hb]; decide, 0x09#16, by rw [hb]; decide⟩
    · cases h
  obtain ⟨hlt, u, hmem⟩ := hmem
  obtain ⟨e', he', hu⟩ := escapedByte_of_mem hmem
  rw [h] at he'
  cases he'
  exact ⟨hlt, u, hmem, hu⟩

theorem litCharHexLookup_four (h1 h2 h3 h4 : Byte) :
    litCharHexLookup [h1, h2, h3, h4] 4 =
      (hexDigit h1).bind fun d1 => (hexDigit h2).bind fun d2 => (hexDigit h3).bind fun d3 =>
        (hexDigit h4).bind fun d4 => some (((d1 * 16 + d2) * 16 + d3) * 16 + d4) := by
  rw [litCharHexLookup, if_neg (by simp)]
  simp only [List.take, hexLookupLoop_cons, Nat.zero_mul, Nat.zero_add]
  rfl

theorem hexDigit_lt {h : Byte} {d : Nat} (hd : hexDigit h = some d) : d < 16 ∧ h.toNat < 0x80 := by
  unfold hexDigit at hd
  split at hd
  · cases hd; omega
  · split at hd
    · cases hd; omega
    · split at hd
      · cases hd; omega
      · cases hd

/-- The builder gets the encoding of the code unit. -/
theorem litCodePointToCesu8Bytes_hex {n : Nat} (h : n < 0x10000) :
    litCodePointToCesu8Bytes (BitVec.ofNat 32 n) = encode (BitVec.ofNat 16 n).toNat := by
  have h32 : (BitVec.ofNat 32 n).toNat = n := by rw [BitVec.toNat_ofNat, Nat.mod_eq_of_lt (by omega)]
  rw [litCodePointToCesu8Bytes_small (by omega), h32, BitVec.toNat_ofNat, Nat.mod_eq_of_lt (by omega)]

theorem encode_ascii {c : Point} (h : c.val < 0x80) : c.encode = [BitVec.ofNat 8 c.val] := by
  rw [Point.encode, Utf8.encode, if_pos h]

/-- After a backslash: an escape, and the loop goes on behind it. -/
theorem escape_cases {str r : List Byte} (hs : WellFormed s)
    (h : parseStringLoop B U (0x5c#8 :: s) = some (str, r)) :
    ∃ lex u s', s = lex ++ s' ∧ lex ≠ [] ∧ WellFormed s' ∧
      (∀ body us, StringBody body us → StringBody (0x5c#8 :: (lex ++ body)) (u :: us)) ∧
      parseStringLoop (B ++ U ++ encode u.toNat) [] s' = some (str, r) := by
  rw [parseStringLoop_backslash] at h
  split at h
  · cases h
  · rename_i c s
    split at h
    · rename_i e he
      obtain ⟨hlt, u, hmem, hu⟩ := mem_of_escapedByte he
      refine ⟨[c], u, s, rfl, by simp, hs.tail hlt, ?_, by rw [← hu]; exact h⟩
      intro body us hbody
      exact .escape hmem hbody
    · split at h
      · rename_i hc
        split at h
        · rename_i h1 h2 h3 h4 s
          split at h
          · rename_i hex hlook
            rw [litCharHexLookup_four] at hlook
            obtain ⟨d1, e1, hlook⟩ := Option.bind_eq_some_iff.mp hlook
            obtain ⟨d2, e2, hlook⟩ := Option.bind_eq_some_iff.mp hlook
            obtain ⟨d3, e3, hlook⟩ := Option.bind_eq_some_iff.mp hlook
            obtain ⟨d4, e4, hlook⟩ := Option.bind_eq_some_iff.mp hlook
            cases hlook
            obtain ⟨b1, l1⟩ := hexDigit_lt e1
            obtain ⟨b2, l2⟩ := hexDigit_lt e2
            obtain ⟨b3, l3⟩ := hexDigit_lt e3
            obtain ⟨b4, l4⟩ := hexDigit_lt e4
            rw [litCodePointToCesu8Bytes_hex (by omega)] at h
            rw [hc] at hs ⊢
            refine ⟨[0x75#8, h1, h2, h3, h4], _, s, rfl, by simp, ?_, ?_, h⟩
            · exact ((((hs.tail (by decide)).tail l1).tail l2).tail l3).tail l4
            · intro body us hbody
              exact .hex e1 e2 e3 e4 hbody
          · cases h
        · cases h
      · cases h

theorem parseStringLoop_complete {body : List Byte} {us : List CodeUnit} (h : StringBody body us) (B U r : List Byte) :
    parseStringLoop B U (body ++ 0x22#8 :: r) = some (B ++ U ++ cesu8 us, r) := by
  induction h generalizing B U with
  | nil =>
    rw [List.nil_append, parseStringLoop_quote, cesu8_nil, List.append_nil]
  | @char c s us h1 h2 h3 _ ih =>
    obtain ⟨B', U', hstep, hcat⟩ := parseStringLoop_char (B := B) (U := U) (s := s ++ 0x22#8 :: r) h1 h2 h3
    rw [List.append_assoc, hstep, ih, hcat, cesu8_append, List.append_assoc]
  | @escape b u s us hmem _ ih =>
    obtain ⟨e, he, hu⟩ := escapedByte_of_mem hmem
    rw [List.cons_append, List.cons_append, parseStringLoop_backslash]
    simp only [he]
    rw [ih, List.append_nil, cesu8_cons, ← hu, List.append_assoc]
  | @hex h1 h2 h3 h4 d1 d2 d3 d4 s us e1 e2 e3 e4 _ ih =>
    have hno : escapedByte 0x75#8 = none := by decide
    have hlook : litCharHexLookup [h1, h2, h3, h4] 4 = some (((d1 * 16 + d2) * 16 + d3) * 16 + d4) := by
      rw [litCharHexLookup_four, e1, e2, e3, e4]
      rfl
    have b1 := (hexDigit_lt e1).1
    have b2 := (hexDigit_lt e2).1
    have b3 := (hexDigit_lt e3).1
    have b4 := (hexDigit_lt e4).1
    simp only [List.cons_append]
    rw [parseStringLoop_backslash]
    simp only [hno, if_true, hlook]
    rw [ih, litCodePointToCesu8Bytes_hex (by omega), List.append_nil, cesu8_cons, List.append_assoc]

/-- What the loop accepts in a well-formed text. -/
theorem parseStringLoop_sound {str r : List Byte} (hs : WellFormed s) (h : parseStringLoop B U s = some (str, r)) :
    ∃ body us, s = body ++ 0x22#8 :: r ∧ StringBody body us ∧ str = B ++ U ++ cesu8 us ∧ WellFormed r := by
  -- on the length of what is left, since an escape takes several characters
  induction hn : s.length using Nat.strongRecOn generalizing s B U with
  | ind n ih =>
    subst hn
    cases hs.cases with
    | inl hnil => rw [hnil, parseStringLoop] at h; cases h
    | inr hcons =>
      obtain ⟨c, s', rfl, hs'⟩ := hcons
      have hpos := List.length_pos_iff.mpr c.sequence.ne_nil
      by_cases hctl : c.val < 0x20
      · rw [encode_ascii (by omega), List.singleton_append,
          parseStringLoop_control (by rw [toNat_ofNat (by omega)]; exact hctl)] at h
        cases h
      by_cases hquote : c.val = 0x22
      · rw [encode_ascii (by omega), hquote, List.singleton_append, parseStringLoop_quote] at h
        rw [encode_ascii (by omega), hquote]
        cases h
        exact ⟨[], [], rfl, .nil, by simp, hs'⟩
      by_cases hback : c.val = 0x5c
      · rw [encode_ascii (by omega), hback, List.singleton_append] at h ih ⊢
        obtain ⟨lex, u, s'', rfl, hlex, hs'', hesc, hloop⟩ := escape_cases hs' h
        obtain ⟨body, us, rfl, hbody, rfl, hr⟩ :=
          ih s''.length (by simp only [List.length_cons, List.length_append]; omega) hs'' hloop rfl
        refine ⟨0x5c#8 :: (lex ++ body), u :: us, by simp, hesc body us hbody, ?_, hr⟩
        rw [List.append_nil, cesu8_cons, List.append_assoc]
      obtain ⟨B', U', hstep, hcat⟩ := parseStringLoop_char (B := B) (U := U) (s := s') (by omega) hquote hback
      rw [hstep] at h
      obtain ⟨body, us, rfl, hbody, rfl, hr⟩ := ih s'.length (by rw [List.length_append]; omega) hs' h rfl
      refine ⟨c.encode ++ body, c.units ++ us, by simp, .char (by omega) hquote hback hbody, ?_, hr⟩
      rw [hcat, cesu8_append, List.append_assoc]

end

/-! ## Numbers -/

/-- A numeral as the source reads it: after a minus the integer may be missing. -/
def LooseNumeral (s : List Byte) : Prop :=
  ∃ sign i f e, (sign = [] ∨ sign = [0x2d#8]) ∧ (IntegerPart i ∨ i = [] ∧ sign = [0x2d#8]) ∧ FractionPart f ∧
    ExponentPart e ∧ s = sign ++ (i ++ (f ++ e))

theorem looseNumeral_of_numeral {s : List Byte} (h : Numeral s) : LooseNumeral s := by
  obtain ⟨sign, i, f, e, hsign, hi, hf, he, hs⟩ := h
  exact ⟨sign, i, f, e, hsign, .inl hi, hf, he, hs⟩

/-- The text does not go on with a digit. -/
def NoDigit (s : List Byte) : Prop := ∀ b, s.head? = some b → ¬ IsDigit b

/-- The text does not go on with a byte that belongs to a numeral. -/
def NumeralEnd (s : List Byte) : Prop :=
  ∀ b, s.head? = some b → ¬ IsDigit b ∧ b ≠ 0x2e#8 ∧ b ≠ 0x65#8 ∧ b ≠ 0x45#8

theorem noDigit_iff {s : List Byte} : NoDigit s ↔ s.head?.any litCharIsDecimalDigit = false := by
  cases s with
  | nil => simp [NoDigit]
  | cons b s => simp [NoDigit, ← litCharIsDecimalDigit_iff]

theorem dropWhile_digits {ds r : List Byte} (hds : ∀ d ∈ ds, IsDigit d) (hr : NoDigit r) :
    (ds ++ r).dropWhile litCharIsDecimalDigit = r := by
  rw [List.dropWhile_append_of_pos (fun d hd => (litCharIsDecimalDigit_iff d).mpr (hds d hd))]
  cases r with
  | nil => rfl
  | cons b r =>
    have hb : ¬ litCharIsDecimalDigit b = true := fun hb => hr b rfl ((litCharIsDecimalDigit_iff b).mp hb)
    rw [List.dropWhile_cons_of_neg hb]

theorem exists_digits (s : List Byte) :
    ∃ ds, s = ds ++ s.dropWhile litCharIsDecimalDigit ∧ ∀ d ∈ ds, IsDigit d := by
  refine ⟨s.takeWhile litCharIsDecimalDigit, List.takeWhile_append_dropWhile.symm, ?_⟩
  intro d hd
  exact (litCharIsDecimalDigit_iff d).mp (List.mem_takeWhile_imp hd)

theorem parseDigits_sound {s r : List Byte} (h : parseDigits s = some r) : ∃ ds, Digits ds ∧ s = ds ++ r := by
  unfold parseDigits at h
  split at h
  · rename_i hany
    cases h
    cases s with
    | nil => simp at hany
    | cons b s =>
      have hb : litCharIsDecimalDigit b = true := by simpa using hany
      obtain ⟨ds, hs, hds⟩ := exists_digits s
      refine ⟨b :: ds, ⟨by simp, ?_⟩, ?_⟩
      · intro d hd
        cases List.mem_cons.mp hd with
        | inl heq => rw [heq]; exact (litCharIsDecimalDigit_iff b).mp hb
        | inr hmem => exact hds d hmem
      · rw [List.dropWhile_cons_of_pos hb, List.cons_append, ← hs]
  · cases h

theorem parseDigits_complete {ds r : List Byte} (hds : Digits ds) (hr : NoDigit r) :
    parseDigits (ds ++ r) = some r := by
  obtain ⟨hne, hds⟩ := hds
  rw [parseDigits, dropWhile_digits hds hr, if_pos]
  cases ds with
  | nil => exact absurd rfl hne
  | cons d ds => simpa using (litCharIsDecimalDigit_iff d).mpr (hds d (by simp))

theorem parseInteger_sound {s r : List Byte} (h : parseInteger s = some r) :
    s ≠ [] ∧ ∃ i, s = i ++ r ∧ (IntegerPart i ∨ i = [] ∧ NoDigit s) := by
  unfold parseInteger at h
  split at h
  · cases h
  · rename_i c r'
    refine ⟨by simp, ?_⟩
    split at h
    · rename_i hc
      split at h
      · cases h
      · cases h
        exact ⟨[0x30#8], by rw [hc]; rfl, .inl (.inl rfl)⟩
    · rename_i hc
      split at h
      · rename_i hdigit
        cases h
        obtain ⟨ds, hs, hds⟩ := exists_digits r'
        refine ⟨c :: ds, by rw [List.cons_append, ← hs], .inl (.inr ⟨⟨by simp, ?_⟩, by simpa using hc⟩)⟩
        intro d hd
        cases List.mem_cons.mp hd with
        | inl heq => rw [heq]; exact (litCharIsDecimalDigit_iff c).mp hdigit
        | inr hmem => exact hds d hmem
      · rename_i hdigit
        cases h
        refine ⟨[], rfl, .inr ⟨rfl, ?_⟩⟩
        rw [noDigit_iff]
        simpa using hdigit

theorem parseInteger_complete {i r : List Byte} (hi : IntegerPart i) (hr : NoDigit r) :
    parseInteger (i ++ r) = some r := by
  cases hi with
  | inl hzero =>
    rw [noDigit_iff] at hr
    rw [hzero, List.singleton_append, parseInteger, if_pos rfl, hr, if_neg (by decide)]
  | inr hpos =>
    obtain ⟨⟨hne, hds⟩, hhead⟩ := hpos
    cases i with
    | nil => exact absurd rfl hne
    | cons d ds =>
      have hd : litCharIsDecimalDigit d = true := (litCharIsDecimalDigit_iff d).mpr (hds d (by simp))
      rw [List.cons_append, parseInteger, if_neg (by simpa using hhead), if_pos hd,
        dropWhile_digits (fun x hx => hds x (by simp [hx])) hr]

/-- Without a digit nothing is read. -/
theorem parseInteger_noDigit {r : List Byte} (hne : r ≠ []) (hr : NoDigit r) : parseInteger r = some r := by
  cases r with
  | nil => exact absurd rfl hne
  | cons c r =>
    have hc : ¬ litCharIsDecimalDigit c = true := fun hc => hr c rfl ((litCharIsDecimalDigit_iff c).mp hc)
    have h0 : c ≠ 0x30#8 := by
      intro h0
      exact hc (by rw [h0]; decide)
    rw [parseInteger, if_neg h0, if_neg hc]

theorem parseFraction_sound {s r : List Byte} (h : parseFraction s = some r) : ∃ f, FractionPart f ∧ s = f ++ r := by
  unfold parseFraction at h
  split at h
  · cases h
    exact ⟨[], .inl rfl, rfl⟩
  · split at h
    · rename_i hc
      obtain ⟨ds, hds, hs⟩ := parseDigits_sound h
      exact ⟨0x2e#8 :: ds, .inr ⟨ds, hds, rfl⟩, by rw [hc, hs]; rfl⟩
    · cases h
      exact ⟨[], .inl rfl, rfl⟩

theorem parseFraction_complete {f r : List Byte} (hf : FractionPart f) (hr : NoDigit r)
    (hdot : ∀ b, r.head? = some b → b ≠ 0x2e#8) : parseFraction (f ++ r) = some r := by
  cases hf with
  | inl hnil =>
    rw [hnil, List.nil_append]
    cases r with
    | nil => rfl
    | cons c r => rw [parseFraction, if_neg (hdot c rfl)]
  | inr hcons =>
    obtain ⟨ds, hds, rfl⟩ := hcons
    rw [List.cons_append, parseFraction, if_pos rfl, parseDigits_complete hds hr]

theorem parseExponent_sound {s r : List Byte} (h : parseExponent s = some r) : ∃ e, ExponentPart e ∧ s = e ++ r := by
  unfold parseExponent at h
  split at h
  · cases h
    exact ⟨[], .inl rfl, rfl⟩
  · rename_i c s
    split at h
    · rename_i hc
      obtain ⟨ds, hds, hs⟩ := parseDigits_sound h
      unfold skipExponentSign at hs
      split at hs
      · exact ⟨c :: ds, .inr ⟨c, [], ds, hc, .inl rfl, hds, rfl⟩, by rw [hs]; rfl⟩
      · rename_i sg s
        split at hs
        · rename_i hsg
          refine ⟨c :: sg :: ds, .inr ⟨c, [sg], ds, hc, .inr ?_, hds, rfl⟩, by rw [hs]; rfl⟩
          cases hsg with
          | inl hplus => exact .inl (by rw [hplus])
          | inr hminus => exact .inr (by rw [hminus])
        · exact ⟨c :: ds, .inr ⟨c, [], ds, hc, .inl rfl, hds, rfl⟩, by rw [hs]; rfl⟩
    · cases h
      exact ⟨[], .inl rfl, rfl⟩

theorem skipExponentSign_digits {ds r : List Byte} (hds : Digits ds) : skipExponentSign (ds ++ r) = ds ++ r := by
  obtain ⟨hne, hds⟩ := hds
  cases ds with
  | nil => exact absurd rfl hne
  | cons d ds =>
    have hd := hds d (by simp)
    rw [List.cons_append, skipExponentSign, if_neg]
    intro hsign
    cases hsign with
    | inl hplus => rw [hplus] at hd; exact absurd hd (by decide)
    | inr hminus => rw [hminus] at hd; exact absurd hd (by decide)

theorem parseExponent_complete {e r : List Byte} (he : ExponentPart e) (hr : NoDigit r)
    (hhead : ∀ b, r.head? = some b → b ≠ 0x65#8 ∧ b ≠ 0x45#8) : parseExponent (e ++ r) = some r := by
  cases he with
  | inl hnil =>
    rw [hnil, List.nil_append]
    cases r with
    | nil => rfl
    | cons c r => rw [parseExponent, if_neg (by simpa using hhead c rfl)]
  | inr hcons =>
    obtain ⟨c, sign, ds, hc, hsign, hds, rfl⟩ := hcons
    rw [List.cons_append, parseExponent, if_pos hc, List.append_assoc]
    have hskip : skipExponentSign (sign ++ (ds ++ r)) = ds ++ r := by
      cases hsign with
      | inl h0 => rw [h0, List.nil_append, skipExponentSign_digits hds]
      | inr hsign =>
        cases hsign with
        | inl h1 => rw [h1, List.singleton_append, skipExponentSign, if_pos (.inl rfl)]
        | inr h1 => rw [h1, List.singleton_append, skipExponentSign, if_pos (.inr rfl)]
    rw [hskip, parseDigits_complete hds hr]

theorem NumeralEnd.noDigit {r : List Byte} (h : NumeralEnd r) : NoDigit r := fun b hb => (h b hb).1

/-- The exponent and the fraction do not begin with a digit. -/
theorem noDigit_exponent {e r : List Byte} (he : ExponentPart e) (hr : NumeralEnd r) :
    NoDigit (e ++ r) ∧ ∀ b, (e ++ r).head? = some b → b ≠ 0x2e#8 := by
  cases he with
  | inl hnil =>
    rw [hnil, List.nil_append]
    exact ⟨hr.noDigit, fun b hb => (hr b hb).2.1⟩
  | inr hcons =>
    obtain ⟨c, sign, ds, hc, -, -, rfl⟩ := hcons
    have key : ¬ IsDigit c ∧ c ≠ 0x2e#8 := by
      cases hc with
      | inl h => rw [h]; decide
      | inr h => rw [h]; decide
    constructor
    · intro b hb
      cases hb
      exact key.1
    · intro b hb
      cases hb
      exact key.2

theorem noDigit_fraction {f s : List Byte} (hf : FractionPart f) (hs : NoDigit s) : NoDigit (f ++ s) := by
  cases hf with
  | inl hnil => rw [hnil]; exact hs
  | inr hcons =>
    obtain ⟨ds, -, rfl⟩ := hcons
    intro b hb
    cases hb
    decide

theorem skipMinus_of_ne {s : List Byte} (h : s.head? ≠ some 0x2d#8) : skipMinus s = s := by
  cases s with
  | nil => rfl
  | cons c s => rw [skipMinus, if_neg (by simpa using h)]

theorem head_integer {i s : List Byte} (hi : IntegerPart i) : ∃ d, (i ++ s).head? = some d ∧ IsDigit d := by
  cases hi with
  | inl hzero => exact ⟨0x30#8, by rw [hzero]; rfl, by decide⟩
  | inr hpos =>
    obtain ⟨⟨hne, hds⟩, -⟩ := hpos
    cases i with
    | nil => exact absurd rfl hne
    | cons d ds => exact ⟨d, rfl, hds d (by simp)⟩

theorem parseNumeral_sound {s r : List Byte} {c : Byte} (hs : s.head? = some c) (hc : c = 0x2d#8 ∨ IsDigit c)
    (h : parseNumeral s = some r) :
    ∃ n, LooseNumeral n ∧ s = n ++ r ∧ (n = [0x2d#8] → r ≠ []) := by
  obtain ⟨s2, h2, h3⟩ := Option.bind_eq_some_iff.mp h
  obtain ⟨s1, h1, h2⟩ := Option.bind_eq_some_iff.mp h2
  obtain ⟨hne, i, hsi, hi⟩ := parseInteger_sound h1
  obtain ⟨f, hf, hsf⟩ := parseFraction_sound h2
  obtain ⟨e, he, hse⟩ := parseExponent_sound h3
  by_cases hminus : s.head? = some 0x2d#8
  · cases s with
    | nil => cases hs
    | cons d s =>
      have hd : d = 0x2d#8 := by simpa using hminus
      rw [skipMinus, if_pos hd] at hsi hi hne
      refine ⟨[0x2d#8] ++ (i ++ (f ++ e)), ⟨_, i, f, e, .inr rfl, ?_, hf, he, rfl⟩, ?_, ?_⟩
      · cases hi with
        | inl hint => exact .inl hint
        | inr hnone => exact .inr ⟨hnone.1, rfl⟩
      · rw [hd, hsi, hsf, hse]
        simp
      · intro hbare hnil
        have hall : i ++ (f ++ e) = [] := by simpa using hbare
        apply hne
        rw [hsi, hsf, hse, hnil, List.append_nil]
        exact hall
  · rw [skipMinus_of_ne hminus] at hsi hi hne
    have hint : IntegerPart i := by
      cases hi with
      | inl hint => exact hint
      | inr hnone =>
        cases hc with
        | inl heq => rw [hs, heq] at hminus; exact absurd rfl hminus
        | inr hdigit => exact absurd hdigit (hnone.2 c hs)
    refine ⟨[] ++ (i ++ (f ++ e)), ⟨_, i, f, e, .inl rfl, .inl hint, hf, he, rfl⟩, ?_, ?_⟩
    · rw [hsi, hsf, hse]
      simp
    · intro hbare
      obtain ⟨d, hd, hdigit⟩ := head_integer (s := f ++ e) hint
      rw [List.nil_append] at hbare
      rw [hbare] at hd
      cases hd
      exact absurd hdigit (by decide)

theorem parseNumeral_complete {n r : List Byte} (hn : LooseNumeral n) (hr : NumeralEnd r) (hbare : n = [0x2d#8] → r ≠ []) :
    parseNumeral (n ++ r) = some r := by
  obtain ⟨sign, i, f, e, hsign, hi, hf, he, rfl⟩ := hn
  have hdig := noDigit_exponent he hr
  have hfrac := noDigit_fraction hf hdig.1
  have hskip : skipMinus (sign ++ (i ++ (f ++ e)) ++ r) = i ++ (f ++ (e ++ r)) := by
    cases hsign with
    | inr h1 =>
      rw [h1, List.singleton_append, List.cons_append, skipMinus, if_pos rfl]
      simp
    | inl h0 =>
      cases hi with
      | inr hnone => rw [h0] at hnone; exact absurd hnone.2 (by simp)
      | inl hint =>
        obtain ⟨d, hd, hdigit⟩ := head_integer (s := f ++ (e ++ r)) hint
        rw [h0, List.nil_append, List.append_assoc, List.append_assoc, skipMinus_of_ne]
        rw [hd]
        intro heq
        cases heq
        exact absurd hdigit (by decide)
  have hinteger : parseInteger (i ++ (f ++ (e ++ r))) = some (f ++ (e ++ r)) := by
    cases hi with
    | inl hint => exact parseInteger_complete hint hfrac
    | inr hnone =>
      obtain ⟨rfl, rfl⟩ := hnone
      rw [List.nil_append]
      refine parseInteger_noDigit ?_ hfrac
      intro hnil
      obtain ⟨rfl, her⟩ := List.append_eq_nil_iff.mp hnil
      obtain ⟨rfl, rfl⟩ := List.append_eq_nil_iff.mp her
      exact hbare rfl rfl
  rw [parseNumeral, hskip, hinteger, Option.bind_some, parseFraction_complete hf hdig.1 hdig.2, Option.bind_some,
    parseExponent_complete he hr.noDigit (fun b hb => (hr b hb).2.2)]

/-! ## Tokens -/

section

variable {ν : Type} (toNumber : List Byte → ν)

/-- The bytes of a token. -/
inductive Lexeme : Token ν → List Byte → Prop where
  | leftBrace : Lexeme .leftBrace [0x7b#8]
  | rightBrace : Lexeme .rightBrace [0x7d#8]
  | leftSquare : Lexeme .leftSquare [0x5b#8]
  | rightSquare : Lexeme .rightSquare [0x5d#8]
  | comma : Lexeme .comma [0x2c#8]
  | colon : Lexeme .colon [0x3a#8]
  | null : Lexeme .null [0x6e#8, 0x75#8, 0x6c#8, 0x6c#8]
  | true : Lexeme .true [0x74#8, 0x72#8, 0x75#8, 0x65#8]
  | false : Lexeme .false [0x66#8, 0x61#8, 0x6c#8, 0x73#8, 0x65#8]
  | string {s : List Byte} {us : List CodeUnit} : StringLiteral s us → Lexeme (.string (cesu8 us)) s
  | number {n : List Byte} : LooseNumeral n → Lexeme (.number (toNumber n)) n

/-- Strings are read only where the caller lets them in. -/
def Allowed (parseString : Bool) : Token ν → Prop
  | .string _ => parseString = true
  | _ => True

/-- A minus on its own is not read at the very end of the buffer. -/
def Guarded (lex r : List Byte) : Prop := lex = [0x2d#8] → r ≠ []

/-- What may follow a token: a numeral takes all the bytes it can. -/
def Follows (lex r : List Byte) : Token ν → Prop
  | .number _ => NumeralEnd r ∧ Guarded lex r
  | _ => True

theorem isJsonSpace_iff (b : Byte) : isJsonSpace b = true ↔ IsSpace b := by
  simp only [isJsonSpace, IsSpace, Bool.or_eq_true, decide_eq_true_eq]
  constructor
  · intro h
    rcases h with ((h | h) | h) | h <;> simp [h]
  · intro h
    rcases h with h | h | h | h <;> simp [h]

theorem dropWhile_white {w s : List Byte} (hw : White w) : (w ++ s).dropWhile isJsonSpace = s.dropWhile isJsonSpace :=
  List.dropWhile_append_of_pos fun b hb => (isJsonSpace_iff b).mpr (hw b hb)

theorem dropWhile_of_white {w : List Byte} (hw : White w) : w.dropWhile isJsonSpace = [] := by
  have h := dropWhile_white (s := []) hw
  rwa [List.append_nil] at h

theorem white_takeWhile (s : List Byte) : White (s.takeWhile isJsonSpace) := by
  intro b hb
  exact (isJsonSpace_iff b).mp (List.mem_takeWhile_imp hb)

theorem ascii_of_isSpace {b : Byte} (h : IsSpace b) : b.toNat < 0x80 := by
  rcases h with rfl | rfl | rfl | rfl <;> decide

theorem parseNextToken_done {parseString : Bool} {s : List Byte} (hs : White s) :
    parseNextToken toNumber parseString s = (.done, s) := by
  rw [parseNextToken, dropWhile_of_white hs]

/-! ### Lexemes are read -/

variable {toNumber} {parseString : Bool} {w r : List Byte}

/-- The first byte after the white space decides. -/
theorem parseNextToken_cons {c : Byte} {s : List Byte} (hw : White w) (hc : ¬ IsSpace c) :
    (w ++ c :: s).dropWhile isJsonSpace = c :: s := by
  rw [dropWhile_white hw, List.dropWhile_cons_of_neg]
  rw [isJsonSpace_iff]
  exact hc

/-- The first byte of a numeral goes to the last case of the switch. -/
theorem head_looseNumeral {n : List Byte} (hn : LooseNumeral n) :
    ∃ c n', n = c :: n' ∧ (c = 0x2d#8 ∨ IsDigit c) := by
  obtain ⟨sign, i, f, e, hsign, hi, -, -, rfl⟩ := hn
  cases hsign with
  | inr h1 => exact ⟨0x2d#8, i ++ (f ++ e), by rw [h1]; rfl, .inl rfl⟩
  | inl h0 =>
    cases hi with
    | inr hnone => rw [h0] at hnone; exact absurd hnone.2 (by simp)
    | inl hint =>
      obtain ⟨d, hd, hdigit⟩ := head_integer (s := f ++ e) hint
      rw [h0, List.nil_append]
      cases hlist : i ++ (f ++ e) with
      | nil => rw [hlist] at hd; cases hd
      | cons c n' =>
        rw [hlist] at hd
        cases hd
        exact ⟨d, n', rfl, .inr hdigit⟩

/-- A minus or a digit is none of the bytes that the switch asks for before. -/
theorem number_head {c : Byte} (h : c = 0x2d#8 ∨ IsDigit c) :
    ¬ IsSpace c ∧ c ≠ 0x7b#8 ∧ c ≠ 0x7d#8 ∧ c ≠ 0x5b#8 ∧ c ≠ 0x5d#8 ∧ c ≠ 0x2c#8 ∧ c ≠ 0x3a#8 ∧ c ≠ 0x22#8 ∧
      c ≠ 0x6e#8 ∧ c ≠ 0x74#8 ∧ c ≠ 0x66#8 ∧ c.toNat < 0x80 := by
  have key : ∀ b : Byte, ¬ (b = 0x2d#8 ∨ IsDigit b) → c ≠ b := by
    intro b hb heq
    exact hb (heq ▸ h)
  refine ⟨?_, key _ (by decide), key _ (by decide), key _ (by decide), key _ (by decide), key _ (by decide),
    key _ (by decide), key _ (by decide), key _ (by decide), key _ (by decide), key _ (by decide), ?_⟩
  · intro hspace
    rcases hspace with hs | hs | hs | hs <;> exact key _ (by decide) hs
  · rcases h with rfl | hd
    · decide
    · exact Nat.lt_of_le_of_lt hd.2 (by decide)

theorem parseNumber_complete (toNumber : List Byte → ν) {n : List Byte} (hn : LooseNumeral n) (hr : NumeralEnd r) (hg : Guarded n r) :
    parseNumber toNumber (n ++ r) = (.number (toNumber n), r) := by
  have hlen : (n ++ r).length - r.length = n.length := by rw [List.length_append]; omega
  rw [parseNumber, parseNumeral_complete hn hr hg]
  simp only [hlen, List.take_left]

theorem parseNextToken_complete (toNumber : List Byte → ν) (parseString : Bool) (r : List Byte) {tok : Token ν}
    {lex : List Byte} (hw : White w) (hlex : Lexeme toNumber tok lex)
    (hallow : Allowed parseString tok) (hfollow : Follows lex r tok) :
    parseNextToken toNumber parseString (w ++ (lex ++ r)) = (tok, r) := by
  cases hlex with
  | number hn =>
    obtain ⟨hend, hg⟩ := hfollow
    have hnum := parseNumber_complete toNumber hn hend hg
    obtain ⟨c, n', rfl, hc⟩ := head_looseNumeral hn
    obtain ⟨h0, h1, h2, h3, h4, h5, h6, h7, h8, h9, h10, -⟩ := number_head hc
    rw [List.cons_append] at hnum ⊢
    rw [← litCharIsDecimalDigit_iff] at hc
    rw [parseNextToken, parseNextToken_cons hw h0]
    simp only [h1, h2, h3, h4, h5, h6, h7, h8, h9, h10, if_false]
    rw [if_pos hc, hnum]
  | @string s us hs =>
    obtain ⟨body, hbody, rfl⟩ := hs
    have hloop := parseStringLoop_complete hbody [] [] r
    rw [List.cons_append, List.append_assoc, List.singleton_append, parseNextToken, parseNextToken_cons hw (by decide)]
    have hb : parseString = true := hallow
    simp [hloop, hb]
  | _ =>
    rw [parseNextToken]
    simp only [List.cons_append, List.nil_append]
    rw [parseNextToken_cons hw (by decide)]
    simp [afterMagic]

/-! ### Only lexemes are read -/

/-- An ASCII character that is no control character. -/
def Printable (b : Byte) : Prop := 0x20 ≤ b.toNat ∧ b.toNat < 0x80

instance (b : Byte) : Decidable (Printable b) := inferInstanceAs (Decidable (0x20 ≤ b.toNat ∧ b.toNat < 0x80))

theorem printable_of_isDigit {d : Byte} (h : IsDigit d) : Printable d :=
  ⟨Nat.le_trans (by decide) h.1, Nat.lt_of_le_of_lt h.2 (by decide)⟩

theorem printable_digits {ds : List Byte} (h : Digits ds) : ∀ b ∈ ds, Printable b :=
  fun b hb => printable_of_isDigit (h.2 b hb)

theorem printable_integer {i : List Byte} (h : IntegerPart i) : ∀ b ∈ i, Printable b := by
  cases h with
  | inl h0 =>
    rw [h0]
    decide
  | inr hpos => exact printable_digits hpos.1

theorem printable_fraction {f : List Byte} (h : FractionPart f) : ∀ b ∈ f, Printable b := by
  cases h with
  | inl h0 => simp [h0]
  | inr hcons =>
    obtain ⟨ds, hds, rfl⟩ := hcons
    intro b hb
    cases List.mem_cons.mp hb with
    | inl heq => rw [heq]; decide
    | inr hmem => exact printable_digits hds b hmem

theorem printable_exponent {e : List Byte} (h : ExponentPart e) : ∀ b ∈ e, Printable b := by
  cases h with
  | inl h0 => simp [h0]
  | inr hcons =>
    obtain ⟨c, sign, ds, hc, hsign, hds, rfl⟩ := hcons
    intro b hb
    rw [List.mem_cons, List.mem_append] at hb
    rcases hb with rfl | hb | hb
    · rcases hc with rfl | rfl <;> decide
    · rcases hsign with rfl | rfl | rfl
      · cases hb
      · rw [List.mem_singleton.mp hb]; decide
      · rw [List.mem_singleton.mp hb]; decide
    · exact printable_digits hds b hb

theorem printable_looseNumeral {n : List Byte} (h : LooseNumeral n) : ∀ b ∈ n, Printable b := by
  obtain ⟨sign, i, f, e, hsign, hi, hf, he, rfl⟩ := h
  intro b hb
  rw [List.mem_append, List.mem_append, List.mem_append] at hb
  rcases hb with hb | hb | hb | hb
  · rcases hsign with rfl | rfl
    · cases hb
    · rw [List.mem_singleton.mp hb]; decide
  · rcases hi with hi | ⟨rfl, -⟩
    · exact printable_integer hi b hb
    · cases hb
  · exact printable_fraction hf b hb
  · exact printable_exponent he b hb

/-- A lexeme in front of the text. -/
def Reads (toNumber : List Byte → ν) (s : List Byte) (tok : Token ν) (r : List Byte) : Prop :=
  ∃ w lex, White w ∧ Lexeme toNumber tok lex ∧ s = w ++ (lex ++ r) ∧ WellFormed r ∧ Guarded lex r

theorem reads_of_ascii {tok : Token ν} {lex : List Byte} (hw : White w) (hlex : Lexeme toNumber tok lex)
    (hascii : ∀ b ∈ lex, b.toNat < 0x80) (hne : lex ≠ [0x2d#8]) (hwf : WellFormed (lex ++ r)) :
    Reads toNumber (w ++ (lex ++ r)) tok r :=
  ⟨w, lex, hw, hlex, rfl, hwf.of_append hascii, fun h => absurd h hne⟩

theorem afterMagic_sound {magic s r : List Byte} (h : afterMagic magic s = some r) : s = magic ++ r := by
  unfold afterMagic at h
  split at h
  · rename_i htake
    cases h
    have hs := (List.take_append_drop magic.length s).symm
    rw [htake] at hs
    exact hs
  · cases h

theorem reads_magic {tok : Token ν} {magic s : List Byte} {t : Token ν} {r r' : List Byte} (hw : White w)
    (hlex : Lexeme toNumber tok magic) (hascii : ∀ b ∈ magic, b.toNat < 0x80) (hne : magic ≠ [0x2d#8])
    (hwf : WellFormed s)
    (h : (match afterMagic magic s with
      | some r => (tok, r)
      | none => (Token.invalid, r')) = (t, r)) : t = .invalid ∨ Reads toNumber (w ++ s) t r := by
  split at h
  · rename_i r'' hmagic
    cases h
    obtain rfl := afterMagic_sound hmagic
    exact .inr (reads_of_ascii hw hlex hascii hne hwf)
  · cases h
    exact .inl rfl

/-- What a token that the tokenizer returns says about the text. -/
theorem parseNextToken_sound {s : List Byte} {tok : Token ν} (hs : WellFormed s)
    (h : parseNextToken toNumber parseString s = (tok, r)) :
    tok = .invalid ∨ tok = .done ∧ White s ∨ Reads toNumber s tok r := by
  have hsplit : s = s.takeWhile isJsonSpace ++ s.dropWhile isJsonSpace := List.takeWhile_append_dropWhile.symm
  have hw := white_takeWhile s
  have hwf : WellFormed (s.dropWhile isJsonSpace) := by
    rw [hsplit] at hs
    exact hs.of_append fun b hb => ascii_of_isSpace (hw b hb)
  rw [parseNextToken] at h
  generalize s.takeWhile isJsonSpace = w at hsplit hw
  generalize s.dropWhile isJsonSpace = s' at hsplit hwf h
  subst hsplit
  cases s' with
  | nil =>
    cases h
    rw [List.append_nil]
    exact .inr (.inl ⟨rfl, hw⟩)
  | cons c s' =>
    simp only [] at h
    have single : ∀ {b : Byte} {t : Token ν}, c = b → (t, s') = (tok, r) → Lexeme toNumber t [b] → b.toNat < 0x80 →
        b ≠ 0x2d#8 → tok = .invalid ∨ tok = .done ∧ White (w ++ c :: s') ∨ Reads toNumber (w ++ c :: s') tok r := by
      intro b t hc heq hlex hascii hne
      cases heq
      subst hc
      exact .inr (.inr (reads_of_ascii hw hlex (by simpa using hascii) (by simpa using hne) hwf))
    have magic : ∀ {m : List Byte} {t : Token ν}, Lexeme toNumber t m → (∀ b ∈ m, b.toNat < 0x80) → m ≠ [0x2d#8] →
        (match afterMagic m (c :: s') with
          | some r => (t, r)
          | none => (Token.invalid, w ++ c :: s')) = (tok, r) →
        tok = .invalid ∨ tok = .done ∧ White (w ++ c :: s') ∨ Reads toNumber (w ++ c :: s') tok r := by
      intro m t hlex hascii hne h
      cases reads_magic hw hlex hascii hne hwf h with
      | inl hinv => exact .inl hinv
      | inr hreads => exact .inr (.inr hreads)
    by_cases h1 : c = 0x7b#8
    · rw [if_pos h1] at h
      exact single h1 h .leftBrace (by decide) (by decide)
    rw [if_neg h1] at h
    by_cases h2 : c = 0x7d#8
    · rw [if_pos h2] at h
      exact single h2 h .rightBrace (by decide) (by decide)
    rw [if_neg h2] at h
    by_cases h3 : c = 0x5b#8
    · rw [if_pos h3] at h
      exact single h3 h .leftSquare (by decide) (by decide)
    rw [if_neg h3] at h
    by_cases h4 : c = 0x5d#8
    · rw [if_pos h4] at h
      exact single h4 h .rightSquare (by decide) (by decide)
    rw [if_neg h4] at h
    by_cases h5 : c = 0x2c#8
    · rw [if_pos h5] at h
      exact single h5 h .comma (by decide) (by decide)
    rw [if_neg h5] at h
    by_cases h6 : c = 0x3a#8
    · rw [if_pos h6] at h
      exact single h6 h .colon (by decide) (by decide)
    rw [if_neg h6] at h
    by_cases h7 : c = 0x22#8
    · rw [if_pos h7] at h
      subst h7
      split at h
      · split at h
        · rename_i str r' hloop
          cases h
          obtain ⟨body, us, rfl, hbody, rfl, hr⟩ := parseStringLoop_sound (hwf.tail (by decide)) hloop
          refine .inr (.inr ⟨w, 0x22#8 :: (body ++ [0x22#8]), hw, .string ⟨body, hbody, rfl⟩, by simp, hr, ?_⟩)
          intro hbare
          cases hbare
        · cases h
          exact .inl rfl
      · cases h
        exact .inl rfl
    rw [if_neg h7] at h
    by_cases h8 : c = 0x6e#8
    · rw [if_pos h8] at h
      exact magic .null (by decide) (by decide) h
    rw [if_neg h8] at h
    by_cases h9 : c = 0x74#8
    · rw [if_pos h9] at h
      exact magic .true (by decide) (by decide) h
    rw [if_neg h9] at h
    by_cases h10 : c = 0x66#8
    · rw [if_pos h10] at h
      exact magic .false (by decide) (by decide) h
    rw [if_neg h10] at h
    split at h
    · rename_i hc
      rw [litCharIsDecimalDigit_iff] at hc
      unfold parseNumber at h
      split at h
      · rename_i r' hnum
        obtain ⟨n, hn, hs', hg⟩ := parseNumeral_sound rfl hc hnum
        cases h
        have hlen : (c :: s').length - r.length = n.length := by
          rw [hs', List.length_append]
          omega
        rw [hlen, hs', List.take_left]
        rw [hs'] at hwf
        exact .inr (.inr ⟨w, n, hw, .number hn, rfl, hwf.of_append fun b hb => (printable_looseNumeral hn b hb).2, hg⟩)
      · cases h
        exact .inl rfl
    · cases h
      exact .inl rfl

end

end Json
end JJS
