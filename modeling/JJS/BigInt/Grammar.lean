import JJS.BigInt.Parse

/-!
# JJS.BigInt.Grammar

StringToBigInt of ECMA-262, and when `ecma_bigint_parse_string` is a parser for it.
-/

namespace JJS
namespace BigInt

open Radix Utf8 Lit

/-! ## The grammar -/

/-- What may stand before the digits: nothing, a sign, or a radix prefix. -/
def marks : List (List Byte × Digit × Bool) :=
  [([], 10#32, false), ([0x2b#8], 10#32, false), ([0x2d#8], 10#32, true),
    ([0x30#8, 0x78#8], 16#32, false), ([0x30#8, 0x58#8], 16#32, false),
    ([0x30#8, 0x6f#8], 8#32, false), ([0x30#8, 0x4f#8], 8#32, false),
    ([0x30#8, 0x62#8], 2#32, false), ([0x30#8, 0x42#8], 2#32, false)]

/-- StringIntegerLiteral, and the number it denotes. -/
inductive StringIntegerLiteral : List Byte → Int → Prop
  | empty {w : List Byte} (hw : White w) : StringIntegerLiteral w 0
  | literal {w p ds w' : List Byte} {radix : Digit} {sign : Bool} (hw : White w) (hmark : (p, radix, sign) ∈ marks)
      (hds : ∀ c ∈ ds, IsDigitOf radix c) (hne : ds ≠ []) (hw' : White w') :
      StringIntegerLiteral (w ++ (p ++ (ds ++ w'))) (if sign then -(textValue radix 0 ds : Int) else textValue radix 0 ds)

/-- What a parser of StringIntegerLiteral returns. -/
def ParsedRight (s : List Byte) : Prop :=
  (∀ z, StringIntegerLiteral s z → ∃ v : Value, ecmaBigintParseString s = .ok v.toBlock ∧ v.toInt = z) ∧
    ((¬ ∃ z, StringIntegerLiteral s z) → ecmaBigintParseString s = .error .syntaxError)

/-- Zeros, a sign or a radix prefix, and then white space: nothing has been multiplied into the result when it ends. -/
def Misread (s : List Byte) : Prop :=
  ∃ w p radix sign z b, White w ∧ (p, radix, sign) ∈ marks ∧ (∀ c ∈ z, c = 0x30#8) ∧ (p = [] → z ≠ []) ∧
    White b ∧ b ≠ [] ∧ s = w ++ (p ++ (z ++ b))

/-- A number of more digits than a BigInt can have. -/
def TooLong (s : List Byte) : Prop :=
  ∃ w p radix sign ds r, White w ∧ (p, radix, sign) ∈ marks ∧ (∀ c ∈ ds, IsDigitOf radix c) ∧
    ¬ Fits (textValue radix 0 ds) ∧ s = w ++ (p ++ (ds ++ r))

/-- Where the first character that is not white space is looked for, there is none that can be read. -/
def Unreadable (s : List Byte) : Prop :=
  ∃ w p radix sign ds w' m, White w ∧ (p, radix, sign) ∈ marks ∧ (∀ c ∈ ds, IsDigitOf radix c) ∧ White w' ∧
    StartsBroken m ∧ s = w ++ (p ++ (ds ++ (w' ++ m)))

/-! ## Marks -/

theorem marks_radix {p : List Byte} {radix : Digit} {sign : Bool} (h : (p, radix, sign) ∈ marks) : 1 < radix.toNat := by
  have key : ∀ m ∈ marks, 1 < m.2.1.toNat := by decide
  exact key _ h

theorem marks_nil {radix : Digit} {sign : Bool} (h : ([], radix, sign) ∈ marks) : radix = 10#32 ∧ sign = false := by
  have key : ∀ m ∈ marks, m.1 = [] → m.2.1 = 10#32 ∧ m.2.2 = false := by decide
  exact key _ h rfl

/-- A text that has to be read as a decimal number. -/
structure Plain (u : List Byte) : Prop where
  digit : ∀ c ∈ u.head?, IsDigitOf 10#32 c
  no_prefix : ∀ c ∈ u.tail.head?, litCharToRadix c = 10#32

theorem parseMark_plain {u : List Byte} (hu : Plain u) : parseMark u = (10#32, false, u) := by
  unfold parseMark
  cases u with
  | nil => rfl
  | cons c v =>
    have hsign : c ≠ 0x2b#8 ∧ c ≠ 0x2d#8 := by
      obtain ⟨d, hd, -⟩ := hu.digit c rfl
      constructor
      · intro h
        rw [h] at hd
        cases hd
      · intro h
        rw [h] at hd
        cases hd
    by_cases h0 : 3 ≤ (c :: v).length ∧ (c :: v).getD 0 0#8 = 0x30#8
    · rw [if_pos h0]
      have hradix : litCharToRadix ((c :: v).getD 1 0#8) = 10#32 := by
        cases v with
        | nil => exact absurd h0.1 (by simp)
        | cons d v => exact hu.no_prefix d rfl
      dsimp only
      rw [if_neg (not_not_intro hradix), hradix]
    · rw [if_neg h0]
      by_cases h2 : 2 ≤ (c :: v).length
      · rw [if_pos h2, List.getD_cons_zero, if_neg hsign.1, if_neg hsign.2]
      · rw [if_neg h2]

theorem parseMark_mark {p u : List Byte} {radix : Digit} {sign : Bool} (hmark : (p, radix, sign) ∈ marks) (hu : u ≠ [])
    (hplain : p = [] → Plain u) : parseMark (p ++ u) = (radix, sign, u) := by
  by_cases hp : p = []
  · rw [hp] at hmark
    obtain ⟨hradix, hsign⟩ := marks_nil hmark
    rw [hp, hradix, hsign]
    exact parseMark_plain (hplain hp)
  · cases u with
    | nil => exact absurd rfl hu
    | cons c u =>
      have key : ∀ m ∈ marks, m.1 ≠ [] → parseMark (m.1 ++ c :: u) = (m.2.1, m.2.2, c :: u) := by
        have hlen : 3 ≤ 2 + (u.length + 1) := by omega
        simp [marks, parseMark, litCharToRadix, lexerToAsciiLowercase, hlen]
      exact key _ hmark hp

/-- Whatever stands before the digits is a mark. -/
theorem parseMark_spec {s : List Byte} (hs : s ≠ []) :
    ∃ p radix sign u, parseMark s = (radix, sign, u) ∧ (p, radix, sign) ∈ marks ∧ s = p ++ u ∧ u ≠ [] := by
  have hnone : ([], 10#32, false) ∈ marks := by decide
  unfold parseMark
  cases s with
  | nil => exact absurd rfl hs
  | cons c v =>
    by_cases h0 : 3 ≤ (c :: v).length ∧ (c :: v).getD 0 0#8 = 0x30#8
    · rw [if_pos h0]
      dsimp only
      by_cases hradix : litCharToRadix ((c :: v).getD 1 0#8) = 10#32
      · rw [if_neg (not_not_intro hradix), hradix]
        exact ⟨[], 10#32, false, c :: v, rfl, hnone, rfl, hs⟩
      · rw [if_pos hradix]
        have key : ∀ d : Byte, litCharToRadix d ≠ 10#32 → ([0x30#8, d], litCharToRadix d, false) ∈ marks := by decide +kernel
        cases v with
        | nil => exact absurd h0.1 (by simp)
        | cons d u =>
          have hc : c = 0x30#8 := h0.2
          refine ⟨[0x30#8, d], litCharToRadix d, false, u, rfl, key d hradix, by rw [hc]; rfl, ?_⟩
          intro hnil
          rw [hnil] at h0
          exact absurd h0.1 (by simp)
    · rw [if_neg h0]
      by_cases h2 : 2 ≤ (c :: v).length
      · have hv : v ≠ [] := by
          intro hnil
          rw [hnil] at h2
          exact absurd h2 (by simp)
        rw [if_pos h2, List.getD_cons_zero, List.drop_one, List.tail_cons]
        by_cases hplus : c = 0x2b#8
        · rw [if_pos hplus, hplus]
          exact ⟨[0x2b#8], 10#32, false, v, rfl, by decide, rfl, hv⟩
        · rw [if_neg hplus]
          by_cases hminus : c = 0x2d#8
          · rw [if_pos hminus, hminus]
            exact ⟨[0x2d#8], 10#32, true, v, rfl, by decide, rfl, hv⟩
          · rw [if_neg hminus]
            exact ⟨[], 10#32, false, c :: v, rfl, hnone, rfl, hs⟩
      · rw [if_neg h2]
        exact ⟨[], 10#32, false, c :: v, rfl, hnone, rfl, hs⟩

/-! ## The parts of a text -/

theorem ecmaBigintParseString_dark {w t : List Byte} (hw : White w) (ht : StartsDark t) (hne : t ≠ []) :
    ecmaBigintParseString (w ++ t) = parseDigits (parseMark t).1 (parseMark t).2.1 (parseMark t).2.2 := by
  unfold ecmaBigintParseString
  rw [ecmaStringTrimFront_dark hw ht]
  dsimp only
  rw [if_neg hne]

theorem isDigitOf_dark {radix : Digit} {c : Byte} (h : IsDigitOf radix c) (s : List Byte) : StartsDark (c :: s) := by
  obtain ⟨d, hd, -⟩ := h
  exact hexDigit_dark (by rw [hd]; simp) s

/-- A mark and a text that is not taken for another mark. -/
theorem ecmaBigintParseString_mark {w p u : List Byte} {radix : Digit} {sign : Bool} (hw : White w)
    (hmark : (p, radix, sign) ∈ marks) (hu : u ≠ []) (hplain : p = [] → Plain u) :
    ecmaBigintParseString (w ++ (p ++ u)) = parseDigits radix sign u := by
  have hdark : StartsDark (p ++ u) := by
    by_cases hp : p = []
    · cases u with
      | nil => exact absurd rfl hu
      | cons c u =>
        rw [hp]
        exact isDigitOf_dark ((hplain hp).digit c rfl) u
    · have key : ∀ m ∈ marks, m.1 ≠ [] → ∀ c ∈ m.1.head?, c.toNat < 0x80 ∧ 0x20 < c.toNat := by decide
      cases p with
      | nil => exact absurd rfl hp
      | cons c p =>
        obtain ⟨hascii, hspace⟩ := key _ hmark hp c rfl
        exact startsDark_cons hascii (by omega) (p ++ u)
  have hne : p ++ u ≠ [] := fun hnil => hu (List.append_eq_nil_iff.mp hnil).2
  rw [ecmaBigintParseString_dark hw hdark hne, parseMark_mark hmark hu hplain]

/-- Decimal digits are plain when no letter of a prefix can follow them. -/
theorem plain_digits {ds u : List Byte} (hds : ∀ c ∈ ds, IsDigitOf 10#32 c) (hne : ds ≠ [])
    (hu : ∀ c ∈ u.head?, litCharToRadix c = 10#32) : Plain (ds ++ u) := by
  have key : ∀ c : Byte, IsDigitOf 10#32 c → litCharToRadix c = 10#32 := by decide +kernel
  cases ds with
  | nil => exact absurd rfl hne
  | cons c ds =>
    refine ⟨fun d hd => hds d (List.mem_of_mem_head? hd), ?_⟩
    cases ds with
    | nil => exact hu
    | cons d ds =>
      intro e he
      cases he
      exact key d (hds d (by simp))

theorem isDigitOf_of_zeros {radix : Digit} (hradix : 1 < radix.toNat) {z : List Byte} (hz : ∀ c ∈ z, c = 0x30#8) :
    ∀ c ∈ z, IsDigitOf radix c := by
  intro c hc
  rw [hz c hc]
  exact isDigitOf_zero hradix

theorem plain_white {ds w : List Byte} {radix : Digit} {sign : Bool} (hmark : ([], radix, sign) ∈ marks)
    (hds : ∀ c ∈ ds, IsDigitOf radix c) (hne : ds ≠ []) (hw : White w) : Plain (ds ++ w) := by
  obtain ⟨hradix, -⟩ := marks_nil hmark
  rw [hradix] at hds
  refine plain_digits hds hne fun c hc => ?_
  rw [← List.append_nil w] at hc
  exact (white_head hw (Or.inl rfl) hc).2

/-! ## What is accepted, and what is not -/

theorem parse_literal {s : List Byte} {z : Int} (h : StringIntegerLiteral s z) (hmisread : ¬ Misread s)
    (hlong : ¬ TooLong s) : ∃ v : Value, ecmaBigintParseString s = .ok v.toBlock ∧ v.toInt = z := by
  cases h with
  | empty hw =>
    refine ⟨⟨Block.zero, trimmed_nil, fun _ => rfl, Nat.zero_le _⟩, ?_, rfl⟩
    unfold ecmaBigintParseString
    rw [ecmaStringTrimFront_white hw]
    rfl
  | @literal w p ds w' radix sign hw hmark hds hne hw' =>
    have hu : ds ++ w' ≠ [] := fun hnil => hne (List.append_eq_nil_iff.mp hnil).1
    rw [ecmaBigintParseString_mark hw hmark hu fun hp => plain_white (hp ▸ hmark) hds hne hw']
    refine parseDigits_white (marks_radix hmark) sign hds hw' ?_ ?_
    · by_contra h
      rw [not_or, not_not] at h
      exact hmisread ⟨w, p, radix, sign, ds, w', hw, hmark, h.2, fun _ => hne, hw', h.1, rfl⟩
    · by_contra h
      exact hlong ⟨w, p, radix, sign, ds, w', hw, hmark, hds, h, rfl⟩

theorem parse_other {s : List Byte} (hmisread : ¬ Misread s) (hlong : ¬ TooLong s) (hread : ¬ Unreadable s)
    (h : ¬ ∃ z, StringIntegerLiteral s z) : ecmaBigintParseString s = .error .syntaxError := by
  have hnone : ([], 10#32, false) ∈ marks := by decide
  obtain ⟨w, t, hw, hs, ht⟩ := exists_white s.length s (Nat.le_refl _)
  subst hs
  cases ht with
  | inr hbroken =>
    exact absurd ⟨w, [], 10#32, false, [], [], t, hw, hnone, fun c hc => (nomatch hc), White.nil, hbroken, rfl⟩ hread
  | inl hdark =>
    by_cases hnil : t = []
    · rw [hnil, List.append_nil] at h
      exact absurd ⟨0, StringIntegerLiteral.empty hw⟩ h
    · obtain ⟨p, radix, sign, u, hmark, hmem, ht, hu⟩ := parseMark_spec hnil
      rw [ecmaBigintParseString_dark hw hdark hnil, hmark]
      -- The digits, as many as there are, the white space behind them, and the rest.
      obtain ⟨ds, e, hue, hds, he⟩ : ∃ ds e, u = ds ++ e ∧ (∀ c ∈ ds, IsDigitOf radix c) ∧ ∀ c ∈ e.head?, ¬ IsDigitOf radix c := by
        refine ⟨u.takeWhile fun c => decide (IsDigitOf radix c), u.dropWhile fun c => decide (IsDigitOf radix c),
          List.takeWhile_append_dropWhile.symm, ?_, ?_⟩
        · intro c hc
          simpa using List.mem_takeWhile_imp hc
        · intro c hc
          have hhead := List.head?_dropWhile_not (fun c => decide (IsDigitOf radix c)) u
          rw [Option.mem_def.mp hc] at hhead
          simpa using hhead
      obtain ⟨w', m, hw', hem, hm⟩ := exists_white e.length e (Nat.le_refl _)
      subst hem hue ht
      have hfits : Fits (textValue radix 0 ds) := by
        by_contra hbig
        exact hlong ⟨w, p, radix, sign, ds, w' ++ m, hw, hmem, hds, hbig, rfl⟩
      cases hm with
      | inr hbroken => exact absurd ⟨w, p, radix, sign, ds, w', m, hw, hmem, hds, hw', hbroken, rfl⟩ hread
      | inl hm =>
        by_cases hmnil : m = []
        · rw [hmnil, List.append_nil] at h hu hmisread hdark
          by_cases hdsnil : ds = []
          · rw [hdsnil, List.nil_append] at hu hmisread hdark
            have hp : p ≠ [] := by
              intro hp
              rw [hp, List.nil_append] at hdark
              exact White.not_dark hw' hu hdark
            exact absurd ⟨w, p, radix, sign, [], w', hw, hmem, fun c hc => (nomatch hc), fun h => absurd h hp, hw', hu, rfl⟩
              hmisread
          · exact absurd ⟨_, StringIntegerLiteral.literal hw hmem hds hdsnil hw'⟩ h
        · exact parseDigits_dark (marks_radix hmem) sign hds hw' hm hmnil he hfits

theorem misread_null {s : List Byte} (h : Misread s) : ecmaBigintParseString s = .error .null := by
  obtain ⟨w, p, radix, sign, z, b, hw, hmark, hz, hp, hb, hne, hs⟩ := h
  have hds := isDigitOf_of_zeros (marks_radix hmark) hz
  have hu : z ++ b ≠ [] := fun hnil => hne (List.append_eq_nil_iff.mp hnil).2
  rw [hs, ecmaBigintParseString_mark hw hmark hu fun h => plain_white (h ▸ hmark) hds (hp h) hb]
  exact parseDigits_zeros (marks_radix hmark) sign hds hb hne hz

theorem fits_charValue (c : Byte) : Fits (charValue c) := by
  have key : ∀ c : Byte, (Ecma404.hexDigit c).getD 0 < 2 ^ 32 := by decide +kernel
  have hone : (2 ^ 32) ^ 1 ≤ (2 ^ 32) ^ (maxSize / 4) := Nat.pow_le_pow_right (by decide) (by decide)
  rw [pow_one] at hone
  exact Nat.lt_of_lt_of_le (key c) hone

theorem tooLong_null {s : List Byte} (h : TooLong s) : ecmaBigintParseString s = .error .null := by
  obtain ⟨w, p, radix, sign, ds, r, hw, hmark, hds, hfits, hs⟩ := h
  have hradix := marks_radix hmark
  -- One digit fits, so there are two.
  obtain ⟨c, d, es, heq⟩ : ∃ c d es, ds = c :: d :: es := by
    cases ds with
    | nil => exact absurd (Nat.pow_pos (by decide)) hfits
    | cons c ds =>
      cases ds with
      | cons d es => exact ⟨c, d, es, rfl⟩
      | nil =>
        have hone : textValue radix 0 [c] = charValue c := by
          show 0 * radix.toNat + charValue c = charValue c
          rw [Nat.zero_mul, Nat.zero_add]
        rw [hone] at hfits
        exact absurd (fits_charValue c) hfits
  have hu : ds ++ r ≠ [] := by
    rw [heq]
    simp
  have hplain : p = [] → Plain (ds ++ r) := by
    intro hp
    obtain ⟨hten, -⟩ := marks_nil (hp ▸ hmark)
    rw [hten] at hds
    rw [heq] at hds ⊢
    have htail : ∀ e ∈ d :: es, IsDigitOf 10#32 e := fun e he => hds e (List.mem_cons_of_mem _ he)
    refine ⟨fun e he => ?_, fun e he => ?_⟩
    · cases he
      exact hds c List.mem_cons_self
    · cases he
      have key : ∀ c : Byte, IsDigitOf 10#32 c → litCharToRadix c = 10#32 := by decide +kernel
      exact key d (htail d List.mem_cons_self)
  rw [hs, ecmaBigintParseString_mark hw hmark hu hplain]
  exact parseDigits_too_long hradix sign hds r hfits

theorem unreadable_fails {s : List Byte} (h : Unreadable s) :
    ecmaBigintParseString s = .error .assertion ∨ ecmaBigintParseString s = .error .null := by
  obtain ⟨w, p, radix, sign, ds, w', m, hw, hmark, hds, hw', hm, hs⟩ := h
  by_cases hnil : p = [] ∧ ds = []
  · left
    have hboth : White (w ++ w') := by
      clear hs
      induction hw with
      | nil => exact hw'
      | cons hread hu _ ih =>
        rw [List.append_assoc]
        exact White.cons hread hu ih
    rw [hs, hnil.1, hnil.2, List.nil_append, List.nil_append, ← List.append_assoc]
    unfold ecmaBigintParseString
    rw [ecmaStringTrimFront_broken hboth hm]
  · have hradix := marks_radix hmark
    have hu : ds ++ (w' ++ m) ≠ [] := by
      intro h
      exact hm.1 (List.append_eq_nil_iff.mp (List.append_eq_nil_iff.mp h).2).2
    have hplain : p = [] → Plain (ds ++ (w' ++ m)) := by
      intro hp
      obtain ⟨hten, -⟩ := marks_nil (hp ▸ hmark)
      rw [hten] at hds
      exact plain_digits hds (fun h => hnil ⟨hp, h⟩) fun c hc => (white_head hw' (Or.inr hm) hc).2
    rw [hs, ecmaBigintParseString_mark hw hmark hu hplain]
    by_cases hfits : Fits (textValue radix 0 ds)
    · exact Or.inl (parseDigits_broken hradix sign hds hw' hm hfits)
    · exact Or.inr (parseDigits_too_long hradix sign hds _ hfits)

theorem not_parsedRight {s : List Byte} {e : Fail} (h : ecmaBigintParseString s = .error e) (he : e ≠ .syntaxError) :
    ¬ ParsedRight s := by
  intro hright
  by_cases hlit : ∃ z, StringIntegerLiteral s z
  · obtain ⟨z, hz⟩ := hlit
    obtain ⟨v, hv, -⟩ := hright.1 z hz
    rw [h] at hv
    cases hv
  · have hsyntax := hright.2 hlit
    rw [h] at hsyntax
    cases hsyntax
    exact he rfl

/-- The parser is one for StringIntegerLiteral, unless it has only seen zeros, a sign or a prefix when white space ends
the text, the number is too long, or the text cannot be read. -/
theorem bigint_parse_string_exact (s : List Byte) : ParsedRight s ↔ ¬ Misread s ∧ ¬ TooLong s ∧ ¬ Unreadable s := by
  constructor
  · intro h
    refine ⟨fun hmisread => ?_, fun hlong => ?_, fun hread => ?_⟩
    · exact not_parsedRight (misread_null hmisread) (by simp) h
    · exact not_parsedRight (tooLong_null hlong) (by simp) h
    · cases unreadable_fails hread with
      | inl h' => exact not_parsedRight h' (by simp) h
      | inr h' => exact not_parsedRight h' (by simp) h
  · intro ⟨hmisread, hlong, hread⟩
    exact ⟨fun z hz => parse_literal hz hmisread hlong, fun h => parse_other hmisread hlong hread h⟩

/-- "0" and a blank. -/
theorem zero_blank_misread : ¬ ParsedRight [0x30#8, 0x20#8] := by
  have hspace : IsWhiteSpace 0x20#16 := (litCharIsWhiteSpace_iff _).mp rfl
  have hblank : White [0x20#8] := @White.cons [0x20#8] [] 0x20#16 rfl hspace White.nil
  have hlit : StringIntegerLiteral [0x30#8, 0x20#8] 0 :=
    @StringIntegerLiteral.literal [] [] [0x30#8] [0x20#8] 10#32 false White.nil (by decide) (by decide) (by decide) hblank
  intro hright
  obtain ⟨v, hv, -⟩ := hright.1 0 hlit
  have hnull : ecmaBigintParseString [0x30#8, 0x20#8] = .error .null := by decide
  rw [hnull] at hv
  cases hv

end BigInt
end JJS
