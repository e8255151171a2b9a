import JJS.Lexer.Convert

/-!
# JJS.Lexer.Write

What the second pass over a literal writes. On the elements of a literal, and on the raw value of a part of a template,
it writes the code units that they stand for, reads nothing behind the end and stops there (`convertLoop_cooked`,
`convertLoop_raw`).
-/

namespace JJS
namespace Lexer

open Utf8 Lit Strings StringLiteral

section

variable {q : Byte} {c d : Point} {s rest : List Point} {b : Byte} {t : List Byte} {delimiter : Point} {e : Element}

/-! ## Characters -/

theorem copyExtra_utf8 (ht : ∀ x ∈ t, isExtraByte x = true) (hs : s ≠ []) : copyExtra (t ++ utf8 s) = some (t, utf8 s) := by
  induction t with
  | nil =>
    cases s with
    | nil => exact absurd rfl hs
    | cons c s =>
      obtain ⟨b, t, he, -, hb, -⟩ := encode_first c
      rw [List.nil_append, utf8_first he, copyExtra, hb]
      rfl
  | cons x t ih =>
    rw [List.cons_append, copyExtra, ht x List.mem_cons_self, ih fun y hy => ht y (List.mem_cons_of_mem x hy)]
    rfl

theorem copyCharacter_utf8 (he : c.encode = b :: t) (hs : s ≠ []) :
    copyCharacter b (t ++ utf8 s) = some (.next (cesu8 c.units) (utf8 s)) := by
  rw [copyCharacter.eq_def]
  by_cases hlong : IsLong c
  · have hlen := length_encode_of_long hlong
    rw [he, List.length_cons] at hlen
    rw [if_pos ((first_long he).mpr hlong)]
    match t, hlen with
    | [x, y, z], _ =>
      rw [← litFourByteUtf8CharToCesu8_eq he]
      rfl
  · rw [if_neg (fun h => hlong ((first_long he).mp h)), copyExtra_utf8 (tail_extra he) hs, cesu8_units_short hlong, he]
    rfl

/-! ## Escapes -/

theorem uncheckedDigits_utf8 {k n m : Nat} (h : hexDigits k n s = some (m, rest)) :
    uncheckedDigits k n (utf8 s) = some (m, utf8 rest) := by
  induction k generalizing n s with
  | zero =>
    cases h
    rfl
  | succ k ih =>
    cases s with
    | nil => cases h
    | cons c s =>
      obtain ⟨b, t, he, -⟩ := encode_first c
      rw [hexDigits] at h
      rw [utf8_first he, uncheckedDigits, hexByte_eq he]
      cases hd : hexDigit c with
      | none =>
        rw [hd] at h
        cases h
      | some d =>
        rw [hd] at h
        rw [tail_ascii he (hexDigit_ascii hd).1]
        exact ih h

theorem uncheckedBraces_utf8 {n m : Nat} (h : bracedDigits n s = some (m, rest)) :
    uncheckedBraces n (utf8 s) = some (m, utf8 rest) := by
  induction s generalizing n with
  | nil => cases h
  | cons c s ih =>
    obtain ⟨b, t, he, -⟩ := encode_first c
    rw [bracedDigits] at h
    rw [utf8_first he, uncheckedBraces.eq_def]
    dsimp only
    rw [hexByte_eq he]
    cases hd : hexDigit c with
    | none =>
      rw [hd] at h
      cases h
    | some d =>
      rw [hd] at h
      rw [tail_ascii he (hexDigit_ascii hd).1, List.nil_append]
      cases s with
      | nil =>
        dsimp only at h
        rw [if_neg (c := Next 0x7d []) (fun hn => hn)] at h
        cases h
      | cons x s =>
        obtain ⟨b', t', he', -⟩ := encode_first x
        dsimp only at h
        rw [utf8_first he']
        dsimp only
        by_cases hx : x.val = 0x7d
        · have hx8 : b' = 0x7d#8 := (first_eq he' (by decide)).mpr hx
          rw [if_pos (c := Next 0x7d (x :: s)) hx] at h
          cases h
          rw [if_neg (fun hne => hne hx8), tail_ascii he' (by omega)]
          rfl
        · have hx8 : b' ≠ 0x7d#8 := fun hb => hx ((first_eq he' (by decide)).mp hb)
          rw [if_neg (c := Next 0x7d (x :: s)) hx] at h
          rw [if_pos hx8, ← utf8_first he']
          exact ih h

theorem octalNumber_utf8 (k n : Nat) (s : List Point) (h : (octalDigits k n s).2 ≠ []) :
    octalNumber k n (utf8 s) = some ((octalDigits k n s).1, utf8 (octalDigits k n s).2) := by
  induction k generalizing n s with
  | zero => rfl
  | succ k ih =>
    cases s with
    | nil => exact absurd rfl h
    | cons c s =>
      obtain ⟨b, t, he, -⟩ := encode_first c
      have hdigit : isOctalDigit b = true ↔ 0x30 ≤ c.val ∧ c.val ≤ 0x37 := by
        rw [isOctalDigit, Bool.and_eq_true, decide_eq_true_eq, decide_eq_true_eq, first_ge he (by decide),
          first_le he (by decide)]
      rw [octalDigits] at h ⊢
      rw [utf8_first he, octalNumber]
      by_cases hd : 0x30 ≤ c.val ∧ c.val ≤ 0x37
      · rw [if_pos hd] at h ⊢
        have hb : b.toNat = c.val := by
          have := (first_eq he (show c.val < 0x80 by omega)).mpr rfl
          rw [this, toNat_ofNat (by omega)]
        rw [if_pos (hdigit.mpr hd), tail_ascii he (by omega), hb]
        exact ih _ _ h
      · rw [if_neg hd] at h ⊢
        rw [if_neg (fun hb => hd (hdigit.mp hb)), ← utf8_first he]

theorem convCharacter_eq (he : c.encode = b :: t) :
    (singleEscape c = c ∧ convCharacter b = b) ∨
      (convCharacter b ≠ b ∧ cesu8 (singleEscape c).units = [convCharacter b] ∧ c.val < 0x80) := by
  rw [singleEscape, convCharacter]
  simp only [first_eq he (show 0x62 < 0x80 by decide), first_eq he (show 0x74 < 0x80 by decide),
    first_eq he (show 0x6e < 0x80 by decide), first_eq he (show 0x76 < 0x80 by decide),
    first_eq he (show 0x66 < 0x80 by decide), first_eq he (show 0x72 < 0x80 by decide)]
  have hne : ∀ {n m : Nat}, n < 0x80 → c.val = n → m < 0x80 → m ≠ n → BitVec.ofNat 8 m ≠ b := by
    intro n m hn hc hm hnm hb
    have := (first_eq he hm).mp hb.symm
    omega
  split
  · rename_i hc
    exact Or.inr ⟨hne (by decide) hc (by decide) (by decide), by decide, by omega⟩
  split
  · rename_i hc
    exact Or.inr ⟨hne (by decide) hc (by decide) (by decide), by decide, by omega⟩
  split
  · rename_i hc
    exact Or.inr ⟨hne (by decide) hc (by decide) (by decide), by decide, by omega⟩
  split
  · rename_i hc
    exact Or.inr ⟨hne (by decide) hc (by decide) (by decide), by decide, by omega⟩
  split
  · rename_i hc
    exact Or.inr ⟨hne (by decide) hc (by decide) (by decide), by decide, by omega⟩
  split
  · rename_i hc
    exact Or.inr ⟨hne (by decide) hc (by decide) (by decide), by decide, by omega⟩
  · exact Or.inl ⟨rfl, rfl⟩

theorem codePointBytes_eq (p : Point) : litCodePointToCesu8Bytes (BitVec.ofNat 32 p.val) = cesu8 p.units := by
  have hp := p.isLt
  exact litCodePointToCesu8Bytes_units (by rw [BitVec.toNat_ofNat, Nat.mod_eq_of_lt (by omega)])

theorem legacyOctal_lt (hc : c.val ≤ 0x37) (hlow : 0x30 ≤ c.val) (s : List Point) :
    (octalDigits (if c.val ≤ 0x33 then 2 else 1) (c.val - 0x30) s).1 < if c.val ≤ 0x33 then 256 else 64 := by
  by_cases h3 : c.val ≤ 0x33
  · rw [if_pos h3, if_pos h3]
    obtain ⟨-, -, hlt, hcount⟩ := octalCount_eq 2 (c.val - 0x30) s
    have hpow : 8 ^ octalCount 2 (utf8 s) ≤ 8 ^ 2 := Nat.pow_le_pow_right (by decide) hcount
    have := Nat.mul_le_mul (show c.val - 0x30 + 1 ≤ 4 by omega) hpow
    omega
  · rw [if_neg h3, if_neg h3]
    obtain ⟨-, -, hlt, hcount⟩ := octalCount_eq 1 (c.val - 0x30) s
    have hpow : 8 ^ octalCount 1 (utf8 s) ≤ 8 ^ 1 := Nat.pow_le_pow_right (by decide) hcount
    have := Nat.mul_le_mul (show c.val - 0x30 + 1 ≤ 8 by omega) hpow
    omega

theorem lexerUncheckedHex_digits (before : Byte) (h : ¬Next 0x7b s) {r : Nat × List Byte}
    (hr : uncheckedDigits (if before = 0x75#8 then 4 else 2) 0 (utf8 s) = some r) :
    lexerUncheckedHexToCharacter before (utf8 s) = some r := by
  cases s with
  | nil =>
    split at hr
    · cases hr
    · cases hr
  | cons d s =>
    obtain ⟨b, t, he, -⟩ := encode_first d
    rw [utf8_first he] at hr ⊢
    rw [lexerUncheckedHexToCharacter, if_neg (fun hb => h ((first_eq he (by decide)).mp hb))]
    exact hr

theorem lexerUncheckedHex_braces (before : Byte) (h : Next 0x7b s) {r : Nat × List Byte}
    (hr : uncheckedBraces 0 (utf8 s.tail) = some r) : lexerUncheckedHexToCharacter before (utf8 s) = some r := by
  cases s with
  | nil => exact h.elim
  | cons d s =>
    obtain ⟨b, t, he, -⟩ := encode_first d
    have hd : d.val = 0x7b := h
    rw [utf8_first he, lexerUncheckedHexToCharacter, if_pos ((first_eq he (by decide)).mpr hd), tail_ascii he (by omega)]
    exact hr

/-- The escape that stands here is converted. -/
theorem convertEscape_utf8 (h : escape s = some (e, rest)) (hne : rest ≠ []) :
    convertEscape (utf8 s) = some (.next (cesu8 e.units) (utf8 rest)) := by
  cases s with
  | nil => cases h
  | cons c s =>
    obtain ⟨b, t, he, -⟩ := encode_first c
    rw [escape, lineTerminator_eq] at h
    rw [utf8_first he, convertEscape.eq_def]
    dsimp only
    simp only [isNewlineLsPs_iff he, first_eq he (show 0x0d < 0x80 by decide), first_eq he (show 0x0a < 0x80 by decide),
      first_eq he (show 0x78 < 0x80 by decide), first_eq he (show 0x75 < 0x80 by decide),
      first_ge he (show 0x30 < 0x80 by decide), first_ge he (show 0x34 < 0x80 by decide),
      first_le he (show 0x33 < 0x80 by decide), first_le he (show 0x37 < 0x80 by decide)]
    by_cases hnl : IsNewline c
    · rw [if_pos hnl] at h
      cases h
      rw [plainRest] at hne ⊢
      by_cases hcr : c.val = 0x0d
      · rw [if_pos hcr] at hne ⊢
        rw [if_pos hcr, tail_ascii he (by omega), List.nil_append]
        cases s with
        | nil => exact absurd rfl hne
        | cons d s =>
          obtain ⟨b', t', he', -⟩ := encode_first d
          rw [skipLineFeed, utf8_first he']
          dsimp only
          by_cases hlf : d.val = 0x0a
          · rw [if_pos hlf, if_pos ((first_eq he' (by decide)).mpr hlf), tail_ascii he' (by omega)]
            rfl
          · rw [if_neg hlf, if_neg (fun h => hlf ((first_eq he' (by decide)).mp h)), utf8_first he']
            rfl
      · rw [if_neg hcr] at hne ⊢
        rw [if_neg hcr]
        by_cases hlf : c.val = 0x0a
        · rw [if_pos hlf, tail_ascii he (by omega)]
          rfl
        · have hls : c.val = 0x2028 ∨ c.val = 0x2029 := by
            rw [IsNewline] at hnl
            omega
          have htwo : t.length = 2 := by
            have : c.encode.length = 3 := by
              rw [Point.encode, encode, if_neg (by omega), if_neg (by omega), if_pos (by omega)]
              rfl
            rw [he, List.length_cons] at this
            omega
          rw [if_neg hlf, if_pos hls, ← htwo, List.drop_left]
          rfl
    rw [if_neg hnl] at h
    rw [IsNewline] at hnl
    rw [if_neg (by omega), if_neg (by omega), if_neg (by omega)]
    dsimp only at h
    split at h
    · rename_i hzero
      have hdigits : octalDigits 2 0 s = (0, s) := by
        cases s with
        | nil => rfl
        | cons d s =>
          have hd : ¬(0x30 ≤ d.val ∧ d.val ≤ 0x39) := hzero.2
          rw [octalDigits, if_neg (by omega)]
      cases h
      have hb : b.toNat = 0x30 := by
        rw [(first_eq he (show 0x30 < 0x80 by decide)).mpr hzero.1]
        rfl
      rw [if_pos (by omega), tail_ascii he (by omega), List.nil_append, hb, octalNumber_utf8 _ _ _ (by rw [hdigits]; exact hne),
        hdigits]
      rfl
    split at h
    · rename_i hoct
      have hlt := legacyOctal_lt hoct.2 hoct.1 s
      have hb : b.toNat = c.val := by
        have := (first_eq he (show c.val < 0x80 by omega)).mpr rfl
        rw [this, toNat_ofNat (by omega)]
      have hlegacy := Option.some.inj h
      rw [legacyOctal, Prod.mk.injEq] at hlegacy
      obtain ⟨rfl, rfl⟩ := hlegacy
      have hpoint : ∀ m : Nat, m < 256 → cesu8 (Element.legacy (Fin.ofNat 0x110000 m)).units =
          litCodePointToCesu8Bytes (BitVec.ofNat 32 m) := by
        intro m hm
        have := codePointBytes_eq (Fin.ofNat 0x110000 m)
        rw [Fin.val_ofNat, Nat.mod_eq_of_lt (by omega)] at this
        rw [this]
        rfl
      by_cases h3 : c.val ≤ 0x33
      · rw [if_pos h3] at hne hlt ⊢
        rw [if_pos h3] at hlt
        rw [if_pos ⟨hoct.1, h3⟩, tail_ascii he (by omega), List.nil_append, hb, octalNumber_utf8 _ _ _ hne, hpoint _ hlt]
        rfl
      · rw [if_neg h3] at hne hlt ⊢
        rw [if_neg h3] at hlt
        rw [if_neg (fun h => h3 h.2), if_pos ⟨by omega, hoct.2⟩, tail_ascii he (by omega), List.nil_append, hb,
          octalNumber_utf8 _ _ _ hne, hpoint _ (by omega), litCodePointToCesu8Bytes_small
            (by rw [BitVec.toNat_ofNat, Nat.mod_eq_of_lt (by omega)]; omega), BitVec.toNat_ofNat,
          Nat.mod_eq_of_lt (by omega), encode, if_pos (by omega)]
        rfl
    rename_i hzero hoct
    rw [if_neg (by omega), if_neg (by omega)]
    split at h
    · rename_i h8
      cases h
      rw [if_neg (by omega)]
      cases convCharacter_eq he with
      | inl hsame =>
        rw [if_neg (fun hne' => hne' hsame.2), copyCharacter_utf8 he hne]
        rfl
      | inr hother =>
        exfalso
        have hval : singleEscape c = c := by
          rw [singleEscape, if_neg (by omega), if_neg (by omega), if_neg (by omega), if_neg (by omega), if_neg (by omega),
            if_neg (by omega)]
        have hb : convCharacter b = b := by
          have hfirst := fun {n : Nat} (hn : n < 0x80) (hc : c.val ≠ n) => fun hb => hc ((first_eq he hn).mp hb)
          rw [convCharacter, if_neg (hfirst (by decide) (by omega)), if_neg (hfirst (by decide) (by omega)),
            if_neg (hfirst (by decide) (by omega)), if_neg (hfirst (by decide) (by omega)),
            if_neg (hfirst (by decide) (by omega)), if_neg (hfirst (by decide) (by omega))]
        exact hother.1 hb
    have hchar : ∀ {x : Nat × List Point}, codePoint x = some (e, rest) →
        x.2 = rest ∧ cesu8 e.units = litCodePointToCesu8Bytes (BitVec.ofNat 32 x.1) := by
      intro x hx
      obtain ⟨hrest, p, hp, hval⟩ := codePoint_eq hx
      refine ⟨hrest.symm, ?_⟩
      rw [hp, ← hval, codePointBytes_eq]
      rfl
    split at h
    · rename_i h8 h78
      obtain ⟨x, hx, hp⟩ := Option.bind_eq_some_iff.mp h
      obtain ⟨hrest, hbytes⟩ := hchar hp
      have hb : b = 0x78#8 := (first_eq he (by decide)).mpr h78
      have hdigits := (uncheckedDigits_utf8 hx : _ = some (x.1, utf8 x.2))
      have hbrace : ¬Next 0x7b s := by
        intro hn
        cases s with
        | nil => exact hn
        | cons d s =>
          have hd : d.val = 0x7b := hn
          rw [hexDigits, hexDigit, if_neg (by omega), if_neg (by omega), if_neg (by omega)] at hx
          cases hx
      rw [if_pos (Or.inl h78), tail_ascii he (by omega), List.nil_append,
        lexerUncheckedHex_digits b hbrace (r := (x.1, utf8 x.2)) (by rw [if_neg (by rw [hb]; decide)]; exact hdigits),
        hbytes, hrest]
      rfl
    split at h
    · rename_i h8 h78 h75
      have hb : b = 0x75#8 := (first_eq he (by decide)).mpr h75
      rw [if_pos (Or.inr h75), tail_ascii he (by omega), List.nil_append]
      split at h
      · rename_i hbrace
        obtain ⟨x, hx, hp⟩ := Option.bind_eq_some_iff.mp h
        obtain ⟨hrest, hbytes⟩ := hchar hp
        rw [lexerUncheckedHex_braces b hbrace (r := (x.1, utf8 x.2)) (uncheckedBraces_utf8 hx), hbytes, hrest]
        rfl
      · rename_i hbrace
        obtain ⟨x, hx, hp⟩ := Option.bind_eq_some_iff.mp h
        obtain ⟨hrest, hbytes⟩ := hchar hp
        rw [lexerUncheckedHex_digits b hbrace (r := (x.1, utf8 x.2))
          (by rw [if_pos hb]; exact uncheckedDigits_utf8 hx), hbytes, hrest]
        rfl
    · rename_i h8 h78 h75
      cases h
      rw [if_neg (by omega)]
      cases convCharacter_eq he with
      | inl hsame =>
        rw [if_neg (fun hne' => hne' hsame.2), copyCharacter_utf8 he hne, Element.units, hsame.1]
      | inr hother =>
        rw [if_pos hother.1, tail_ascii he hother.2.2, Element.units, hother.2.1]
        rfl

/-! ## The loop -/

theorem convertLoop_eq (q : Byte) (isRaw : Bool) (s : List Byte) : convertLoop q isRaw s =
    match convertRound q isRaw s with
    | none => none
    | some (.done stop) => some ([], stop)
    | some (.next out s') => (convertLoop q isRaw s').map fun r => (out ++ r.1, r.2) := by
  rw [convertLoop]
  split
  · rename_i h
    rw [h]
  · rename_i h
    rw [h]
  · rename_i h
    rw [h]

/-- The loop ends where the literal ends; `x` is the last byte of the text up to there. -/
theorem convertRound_ending {isRaw : Bool} (hq : Ends q delimiter) (hbs : delimiter.val ≠ 0x5c)
    (h : ending delimiter s = some []) : ∃ x, convertRound q isRaw (utf8 s) = some (.done [x]) ∧ [x] <:+ utf8 s := by
  cases s with
  | nil => cases h
  | cons c s =>
    obtain ⟨b, t, he, -⟩ := encode_first c
    rw [utf8_first he, convertRound.eq_def]
    dsimp only
    rw [ending] at h
    split at h
    · rename_i hc
      have ht := tail_ascii he (by rw [hc, hq.1]; exact hq.2)
      cases h
      rw [if_pos ((hq.first he).mpr hc), ht]
      exact ⟨b, rfl, List.suffix_refl _⟩
    split at h
    · rename_i hc hopen
      obtain ⟨htemplate, hdollar, hnext⟩ := hopen
      have hb : b = 0x24#8 := (first_eq he (by decide)).mpr hdollar
      have ht := tail_ascii he (by omega)
      cases s with
      | nil => exact hnext.elim
      | cons d s =>
        have hd : d.val = 0x7b := hnext
        have hd8 : BitVec.ofNat 8 d.val = 0x7b#8 := by rw [hd]
        have hs : s = [] := Option.some.inj h
        rw [if_neg (fun h => hc ((hq.first he).mp h)), ht, List.nil_append, hb, if_neg (by simp),
          if_pos (hq.template.mpr htemplate), if_pos rfl, utf8_ascii (by omega), hd8, hs]
        exact ⟨0x7b#8, rfl, List.suffix_cons _ _⟩
    · cases h

/-- In cooked mode a round converts an element. -/
theorem convertRound_cooked (hq : Ends q delimiter) (hend : ending delimiter s = none)
    (h : element delimiter s = some (e, rest)) (hne : rest ≠ []) :
    convertRound q false (utf8 s) = some (.next (cesu8 e.units) (utf8 rest)) := by
  cases s with
  | nil => cases h
  | cons c s =>
    obtain ⟨b, t, he, -⟩ := encode_first c
    rw [utf8_first he, convertRound.eq_def]
    dsimp only
    rw [ending] at hend
    split at hend
    · cases hend
    rename_i hc
    split at hend
    · cases hend
    rename_i hopen
    simp only [hq.first he, hq.template, first_eq he (show 0x5c < 0x80 by decide),
      first_eq he (show 0x24 < 0x80 by decide), first_eq he (show 0x0d < 0x80 by decide)]
    rw [element] at h
    rw [if_neg hc]
    by_cases hbs : c.val = 0x5c
    · rw [if_pos hbs] at h
      rw [if_pos ⟨hbs, rfl⟩, tail_ascii he (by omega)]
      exact convertEscape_utf8 h hne
    rw [if_neg hbs] at h
    rw [if_neg (fun h => hbs h.1)]
    have hcopy : c.val ≠ 0x0d → e = .character c ∧ rest = s := by
      intro hcr
      rw [if_neg hcr] at h
      split at h
      · split at h
        · cases h
          exact ⟨rfl, rfl⟩
        · cases h
      · cases h
        exact ⟨rfl, rfl⟩
    by_cases htemplate : IsTemplate delimiter
    · rw [if_pos htemplate]
      by_cases hdollar : c.val = 0x24
      · obtain ⟨rfl, rfl⟩ := hcopy (by omega)
        have ht := tail_ascii he (by omega)
        have hcharacter := copyCharacter_utf8 he hne
        rw [ht, List.nil_append] at hcharacter ⊢
        rw [if_pos hdollar]
        cases rest with
        | nil => exact absurd rfl hne
        | cons d s =>
          obtain ⟨b', t', he', -⟩ := encode_first d
          have hd : b' ≠ 0x7b#8 := fun hb => hopen ⟨htemplate, hdollar, (first_eq he' (by decide)).mp hb⟩
          rw [utf8_first he'] at hcharacter ⊢
          dsimp only
          rw [if_neg hd]
          exact hcharacter
      rw [if_neg hdollar]
      by_cases hcr : c.val = 0x0d
      · rw [if_pos hcr, if_pos htemplate] at h
        cases h
        rw [if_pos hcr, tail_ascii he (by omega), List.nil_append]
        cases s with
        | nil => exact absurd rfl hne
        | cons d s =>
          obtain ⟨b', t', he', -⟩ := encode_first d
          have hq8 : q = 0x60#8 := hq.template.mpr htemplate
          rw [skipLineFeed, utf8_first he', Element.units, lf_units]
          dsimp only
          by_cases hlf : d.val = 0x0a
          · have hb : b' = 0x0a#8 := (first_eq he' (by decide)).mpr hlf
            rw [if_pos hlf, if_pos ⟨by rw [hb, hq8]; decide, hb⟩, tail_ascii he' (by omega)]
            rfl
          · rw [if_neg hlf, if_neg (fun h => hlf ((first_eq he' (by decide)).mp h.2)), utf8_first he']
      rw [if_neg hcr, if_neg (fun h => hbs h.1)]
      obtain ⟨rfl, rfl⟩ := hcopy hcr
      exact copyCharacter_utf8 he hne
    · rw [if_neg htemplate]
      have hcr : c.val ≠ 0x0d := by
        intro hcr
        rw [if_pos hcr, if_neg htemplate] at h
        cases h
      obtain ⟨rfl, rfl⟩ := hcopy hcr
      exact copyCharacter_utf8 he hne

theorem elements_ne_nil {es : List Element} (h : elements delimiter s = some (es, rest)) : s ≠ [] := by
  intro hnil
  rw [hnil, elements_none rfl rfl] at h
  cases h

/-- In cooked mode the loop writes what the elements of the literal stand for. -/
theorem convertLoop_cooked (hq : Ends q delimiter) (hbs : delimiter.val ≠ 0x5c) {es : List Element}
    (h : elements delimiter s = some (es, [])) :
    ∃ x, convertLoop q false (utf8 s) = some (cesu8 (es.flatMap Element.units), [x]) ∧ [x] <:+ utf8 s := by
  induction s using elements.induct delimiter generalizing es with
  | case1 s rest' hend =>
    rw [elements_ending hend] at h
    cases h
    obtain ⟨x, hround, hsuffix⟩ := @convertRound_ending _ _ _ false hq hbs hend
    exact ⟨x, by rw [convertLoop_eq, hround]; rfl, hsuffix⟩
  | case2 s hend helem =>
    rw [elements_none hend helem] at h
    cases h
  | case3 s hend e s' helem ih =>
    rw [elements_element hend helem] at h
    obtain ⟨⟨es', rest'⟩, hr, heq⟩ := Option.map_eq_some_iff.mp h
    cases heq
    obtain ⟨x, hloop, hsuffix⟩ := ih hr
    obtain ⟨w, hw⟩ : ∃ w, utf8 s = w ++ utf8 s' := by
      cases s with
      | nil => cases helem
      | cons c s => exact utf8_suffix ((element_suffix helem).trans (List.suffix_cons c s))
    refine ⟨x, ?_, by rw [hw]; exact hsuffix.trans (List.suffix_append w _)⟩
    rw [convertLoop_eq, convertRound_cooked hq hend helem (elements_ne_nil hr)]
    dsimp only
    rw [hloop, List.flatMap_cons, cesu8_append]
    rfl

theorem raw_ne_nil {us : List CodeUnit} (h : raw s = some (us, rest)) : s ≠ [] := by
  intro hnil
  rw [hnil] at h
  cases h

/-- A character that is plain in the raw value. -/
theorem convertRound_plain (he : c.encode = b :: t) (h1 : c.val ≠ 0x60) (h2 : c.val ≠ 0x5c)
    (h3 : ¬(c.val = 0x24 ∧ Next 0x7b s)) (hne : plainRest c s ≠ []) :
    convertRound 0x60#8 true (b :: (t ++ utf8 s)) = some (.next (cesu8 (plainUnits c)) (utf8 (plainRest c s))) := by
  rw [plainRest] at hne
  rw [plainRest, plainUnits, convertRound.eq_def]
  dsimp only
  simp only [first_eq he (show 0x5c < 0x80 by decide), first_eq he (show 0x60 < 0x80 by decide),
    first_eq he (show 0x24 < 0x80 by decide), first_eq he (show 0x0d < 0x80 by decide)]
  rw [if_neg h1, if_neg (fun h => h2 h.1), if_pos trivial]
  by_cases hdollar : c.val = 0x24
  · have hcr : c.val ≠ 0x0d := by omega
    rw [if_neg hcr] at hne
    have ht := tail_ascii he (by omega)
    have hcharacter := copyCharacter_utf8 he hne
    rw [ht, List.nil_append] at hcharacter ⊢
    rw [if_pos hdollar, if_neg hcr, if_neg hcr]
    cases s with
    | nil => exact absurd rfl hne
    | cons d s =>
      obtain ⟨b', t', he', -⟩ := encode_first d
      have hd : b' ≠ 0x7b#8 := fun hb => h3 ⟨hdollar, (first_eq he' (by decide)).mp hb⟩
      rw [utf8_first he'] at hcharacter ⊢
      dsimp only
      rw [if_neg hd]
      exact hcharacter
  rw [if_neg hdollar]
  by_cases hcr : c.val = 0x0d
  · rw [if_pos hcr] at hne
    rw [if_pos hcr, if_pos hcr, if_pos hcr, tail_ascii he (by omega), List.nil_append]
    cases s with
    | nil => exact absurd rfl hne
    | cons d s =>
      obtain ⟨b', t', he', -⟩ := encode_first d
      rw [skipLineFeed, utf8_first he', lf_units]
      dsimp only
      by_cases hlf : d.val = 0x0a
      · have hb : b' = 0x0a#8 := (first_eq he' (by decide)).mpr hlf
        rw [if_pos hlf, if_pos ⟨by rw [hb]; decide, hb⟩, tail_ascii he' (by omega)]
        rfl
      · rw [if_neg hlf, if_neg (fun h => hlf ((first_eq he' (by decide)).mp h.2)), utf8_first he']
  · rw [if_neg hcr] at hne
    rw [if_neg hcr, if_neg hcr, if_neg hcr, if_neg (fun h => h2 h.1)]
    exact copyCharacter_utf8 he hne

/-- In raw mode the loop writes the raw value, when no opening is escaped. -/
theorem convertLoop_raw {us : List CodeUnit} (hno : hasEscapedOpening s = false) (h : raw s = some (us, [])) :
    ∃ x, convertLoop 0x60#8 true (utf8 s) = some (cesu8 us, [x]) ∧ [x] <:+ utf8 s := by
  induction hn : s.length using Nat.strong_induction_on generalizing s us with
  | _ n ih =>
    have hnext : ∀ {s' : List Point} {us' out : List CodeUnit} {w : List Byte}, s'.length < s.length →
        hasEscapedOpening s' = false → raw s' = some (us', []) → us = out ++ us' → utf8 s = w ++ utf8 s' →
        convertRound 0x60#8 true (utf8 s) = some (.next (cesu8 out) (utf8 s')) →
        ∃ x, convertLoop 0x60#8 true (utf8 s) = some (cesu8 us, [x]) ∧ [x] <:+ utf8 s := by
      intro s' us' out w hlen hno' hraw hus hw hround
      obtain ⟨x, hloop, hsuffix⟩ := ih s'.length (by omega) hno' hraw rfl
      refine ⟨x, ?_, by rw [hw]; exact hsuffix.trans (List.suffix_append w _)⟩
      rw [convertLoop_eq, hround]
      dsimp only
      rw [hloop, hus, cesu8_append]
      rfl
    cases hend : ending accent s with
    | some rest' =>
      rw [raw_ending (show IsTemplate accent from rfl) hend] at h
      cases h
      obtain ⟨x, hround, hsuffix⟩ := @convertRound_ending _ _ _ true ends_accent (by decide) hend
      exact ⟨x, by rw [convertLoop_eq, hround]; rfl, hsuffix⟩
    | none =>
      cases s with
      | nil => cases h
      | cons c s =>
        obtain ⟨b, t, he, -⟩ := encode_first c
        have htext := utf8_first he
        rw [ending] at hend
        split at hend
        · cases hend
        rename_i hc
        split at hend
        · cases hend
        rename_i hopen
        have hc : c.val ≠ 0x60 := fun h => hc (Fin.ext h)
        have hopen : ¬(c.val = 0x24 ∧ Next 0x7b s) := fun h => hopen ⟨rfl, h⟩
        by_cases hbs : c.val = 0x5c
        · have ht := tail_ascii he (by omega)
          have hb : b = 0x5c#8 := (first_eq he (by decide)).mpr hbs
          have hunits : cesu8 c.units = [b] := by
            rw [cesu8_units_short (by rw [IsLong]; omega), he, ht]
          cases s with
          | nil =>
            rw [raw_backslash hbs] at h
            cases h
          | cons d s =>
            obtain ⟨b', t', he', -⟩ := encode_first d
            rw [raw_escaped hbs] at h
            rw [hasEscapedOpening_escaped hbs, Bool.or_eq_false_iff, decide_eq_false_iff_not] at hno
            obtain ⟨⟨us', rest'⟩, hr, heq⟩ := Option.map_eq_some_iff.mp h
            cases heq
            have hround : convertRound 0x60#8 true (utf8 (c :: d :: s)) =
                if b' = 0x60#8 ∨ b' = 0x5c#8 then some (.next [b, b'] (t' ++ utf8 s))
                else copyCharacter b (b' :: (t' ++ utf8 s)) := by
              rw [utf8_first he, utf8_first he', ht, List.nil_append, convertRound.eq_def]
              dsimp only
              rw [if_neg (by rw [hb]; decide), if_neg (by simp), if_pos rfl, if_neg (by rw [hb]; decide),
                if_neg (by rw [hb]; decide), if_pos ⟨hb, rfl⟩]
            by_cases hprotect : b' = 0x60#8 ∨ b' = 0x5c#8
            · have hval : d.val = 0x60 ∨ d.val = 0x5c := by
                rw [← first_eq he' (show 0x60 < 0x80 by decide), ← first_eq he' (show 0x5c < 0x80 by decide)]
                exact hprotect
              have ht' := tail_ascii he' (by omega)
              have hunits' : cesu8 d.units = [b'] := by
                rw [cesu8_units_short (by rw [IsLong]; omega), he', ht']
              rw [if_pos hprotect, ht', List.nil_append] at hround
              refine @hnext s us' (c.units ++ d.units) [b, b'] ?_ hno.2 hr ?_ ?_ ?_
              · rw [List.length_cons, List.length_cons]
                omega
              · rw [rawUnits, if_neg (by omega), List.append_assoc]
              · rw [utf8_first he, utf8_first he', ht, ht']
                rfl
              · rw [hround, cesu8_append, hunits, hunits']
                rfl
            · have hval : d.val ≠ 0x60 ∧ d.val ≠ 0x5c :=
                ⟨fun h => hprotect (Or.inl ((first_eq he' (by decide)).mpr h)),
                  fun h => hprotect (Or.inr ((first_eq he' (by decide)).mpr h))⟩
              have hcharacter := copyCharacter_utf8 (s := d :: s) he (List.cons_ne_nil d s)
              rw [ht, List.nil_append, utf8_first he'] at hcharacter
              rw [if_neg hprotect, hcharacter, ← utf8_first he'] at hround
              refine @hnext (d :: s) (rawUnits d s ++ us') c.units [b] (Nat.lt_succ_self _) ?_ ?_ rfl ?_ hround
              · rw [hasEscapedOpening_plain hval.1 hval.2 hno.1]
                exact hno.2
              · rw [raw_plain hval.1 hval.2 hno.1, hr]
                rfl
              · rw [utf8_first he, ht]
                rfl
        · rw [raw_plain hc hbs hopen, raw_plainRest] at h
          rw [hasEscapedOpening_plain hc hbs hopen, ← hasEscapedOpening_plainRest c] at hno
          obtain ⟨⟨us', rest'⟩, hr, heq⟩ := Option.map_eq_some_iff.mp h
          cases heq
          obtain ⟨w, hw⟩ : ∃ w, utf8 s = w ++ utf8 (plainRest c s) := by
            refine utf8_suffix ?_
            rw [plainRest]
            split
            · exact skipLineFeed_suffix s
            · exact List.suffix_refl s
          refine @hnext _ us' (plainUnits c) (b :: (t ++ w)) (Nat.lt_succ_of_le (plainRest_length c s)) hno hr rfl ?_ ?_
          · rw [utf8_first he, hw, ← List.append_assoc]
            rfl
          · rw [utf8_first he]
            exact convertRound_plain he hc hbs hopen (raw_ne_nil hr)

end

end Lexer
end JJS
