import JJS.Regexp.Valid

/-!
# JJS.Regexp.Groups

The quick count of the groups of a pattern decides what a decimal escape is. For an accepted pattern it is the number of
capturing groups that the parser has opened in the end, so the escape is a backreference just when there is such a
group, and the captures that the byte code refers to are in the table.
-/

namespace JJS
namespace Regexp

open Utf8 Lit Strings Outcome

/-! ## Numbers -/

/-- The number that decimal digits stand for, behind those that are read. -/
def digitsNumber (base : Nat) (n : Nat) (digits : List Byte) : Nat := digits.foldl (fun n c => base * n + (c.toNat - 0x30)) n

/-- The decimal digits in front of a text, as a number. -/
def decimalNumber (s : List Byte) : Nat := digitsNumber 10 0 (s.takeWhile litCharIsDecimalDigit)

/-- The digits of a legacy octal escape: the longest octal number of at most three digits that is a byte. -/
def legacyOctalDigits (s : List Byte) : List Byte :=
  let digits := (s.takeWhile litCharIsOctalDigit).take 3
  if digitsNumber 8 0 digits ≤ 0xff then digits else digits.take 2

theorem le_digitsNumber (digits : List Byte) (n : Nat) : n ≤ digitsNumber 10 n digits := by
  induction digits generalizing n with
  | nil => exact Nat.le_refl n
  | cons c digits ih =>
    have h := ih (10 * n + (c.toNat - 0x30))
    rw [digitsNumber, List.foldl_cons]
    rw [digitsNumber] at h
    omega

theorem toNat_digitValue {c : Byte} (h : 0x30 ≤ c.toNat) : (digitValue c).toNat = c.toNat - 0x30 := by
  have hlt := c.isLt
  have h30 : (0x30#32 : BitVec 32).toNat = 0x30 := rfl
  rw [digitValue, BitVec.toNat_sub, BitVec.toNat_setWidth, h30]
  omega

/-- Numbers that do not fit are clamped. -/
theorem parseDecimalLoop_eq (s : List Byte) (value : BitVec 32) :
    parseDecimalLoop value s =
      (BitVec.ofNat 32 (min (digitsNumber 10 value.toNat (s.takeWhile litCharIsDecimalDigit)) 0xffffffff),
        s.dropWhile litCharIsDecimalDigit) := by
  induction s generalizing value with
  | nil =>
    have hlt := value.isLt
    rw [parseDecimalLoop, List.takeWhile_nil, List.dropWhile_nil, digitsNumber, List.foldl_nil,
      Nat.min_eq_left (by omega), BitVec.ofNat_toNat, BitVec.setWidth_eq]
  | cons c s ih =>
    rw [parseDecimalLoop]
    by_cases hc : litCharIsDecimalDigit c = true
    · have hbounds := decimalDigit_bounds hc
      have hdigit := toNat_digitValue hbounds.1
      have hlt := value.isLt
      have hten : (10#32 : BitVec 32).toNat = 10 := rfl
      have hsum : (value * 10#32 + digitValue c).toNat = (value.toNat * 10 + (c.toNat - 0x30)) % 2 ^ 32 := by
        rw [BitVec.toNat_add, BitVec.toNat_mul, hten, hdigit]
        omega
      rw [if_pos hc, List.takeWhile_cons_of_pos hc, List.dropWhile_cons_of_pos hc, digitsNumber, List.foldl_cons]
      dsimp only
      by_cases hclamp : 0xffffffff#32 / 10#32 < value ∨ value * 10#32 + digitValue c < value
      · rw [if_pos hclamp, ih]
        have hbig : 0xffffffff ≤ 10 * value.toNat + (c.toNat - 0x30) := by
          rcases hclamp with hclamp | hclamp
          · have h := BitVec.lt_def.mp hclamp
            have hmax : (0xffffffff#32 / 10#32 : BitVec 32).toNat = 429496729 := rfl
            omega
          · have h := BitVec.lt_def.mp hclamp
            rw [hsum] at h
            omega
        have h1 := le_digitsNumber (s.takeWhile litCharIsDecimalDigit) (10 * value.toNat + (c.toNat - 0x30))
        have h2 := le_digitsNumber (s.takeWhile litCharIsDecimalDigit) (0xffffffff#32 : BitVec 32).toNat
        have h3 : (0xffffffff#32 : BitVec 32).toNat = 0xffffffff := rfl
        rw [Nat.min_eq_right (by omega)]
        rw [digitsNumber] at h1
        rw [Nat.min_eq_right (by omega)]
      · rw [not_or, BitVec.not_lt, BitVec.not_lt, BitVec.le_def, BitVec.le_def, hsum] at hclamp
        have hmax : (0xffffffff#32 / 10#32 : BitVec 32).toNat = 429496729 := rfl
        have hexact : (value * 10#32 + digitValue c).toNat = 10 * value.toNat + (c.toNat - 0x30) := by omega
        rw [if_neg (by rw [not_or, BitVec.not_lt, BitVec.not_lt, BitVec.le_def, BitVec.le_def, hsum]; exact hclamp), ih,
          hexact]
        rfl
    · have hlt := value.isLt
      rw [if_neg hc, List.takeWhile_cons_of_neg hc, List.dropWhile_cons_of_neg hc, digitsNumber, List.foldl_nil,
        Nat.min_eq_left (by omega), BitVec.ofNat_toNat, BitVec.setWidth_eq]

theorem litParseDecimal_eq {c : Byte} (hc : litCharIsDecimalDigit c = true) (s : List Byte) :
    litParseDecimal (c :: s) =
      (BitVec.ofNat 32 (min (decimalNumber (c :: s)) 0xffffffff), (c :: s).dropWhile litCharIsDecimalDigit) := by
  have hdigit := toNat_digitValue (decimalDigit_bounds hc).1
  rw [litParseDecimal, parseDecimalLoop_eq, hdigit, decimalNumber, List.takeWhile_cons_of_pos hc,
    List.dropWhile_cons_of_pos hc, digitsNumber, digitsNumber, List.foldl_cons, Nat.mul_zero, Nat.zero_add]

theorem octalDigit_bounds {c : Byte} (h : litCharIsOctalDigit c = true) : 0x30 ≤ c.toNat ∧ c.toNat ≤ 0x37 := by
  simp only [litCharIsOctalDigit, Bool.and_eq_true, decide_eq_true_eq, BitVec.le_def] at h
  exact h

theorem toNat_octalValue {c : Byte} (h : litCharIsOctalDigit c = true) : (digitValue c).toNat = c.toNat - 0x30 :=
  toNat_digitValue (octalDigit_bounds h).1

/-- `re_parse_octal` reads a legacy octal escape. -/
theorem reParseOctal_eq {c : Byte} (hc : litCharIsOctalDigit c = true) (s : List Byte) :
    reParseOctal (c :: s) =
      (BitVec.ofNat 32 (digitsNumber 8 0 (legacyOctalDigits (c :: s))),
        (c :: s).drop (legacyOctalDigits (c :: s)).length) := by
  have hc' := octalDigit_bounds hc
  have hone : digitValue c = BitVec.ofNat 32 (digitsNumber 8 0 [c]) := by
    apply BitVec.eq_of_toNat_eq
    rw [toNat_octalValue hc, BitVec.toNat_ofNat]
    show _ = (8 * 0 + (c.toNat - 0x30)) % 2 ^ 32
    omega
  have hsingle : ∀ s : List Byte, s.takeWhile litCharIsOctalDigit = [] → legacyOctalDigits (c :: s) = [c] := by
    intro s hs
    rw [legacyOctalDigits, List.takeWhile_cons_of_pos hc, hs]
    show (if 8 * 0 + (c.toNat - 0x30) ≤ 0xff then [c] else [c]) = [c]
    split
    · rfl
    · rfl
  rw [reParseOctal.eq_def]
  cases s with
  | nil =>
    rw [hsingle [] rfl, ← hone]
    rfl
  | cons d s =>
    dsimp only
    by_cases hd : litCharIsOctalDigit d = true
    · have hd' := octalDigit_bounds hd
      have htwo : digitValue c * 8#32 + digitValue d = BitVec.ofNat 32 (digitsNumber 8 0 [c, d]) := by
        have height : (8#32 : BitVec 32).toNat = 8 := rfl
        apply BitVec.eq_of_toNat_eq
        rw [BitVec.toNat_add, BitVec.toNat_mul, height, toNat_octalValue hc, toNat_octalValue hd, BitVec.toNat_ofNat]
        show _ = (8 * (8 * 0 + (c.toNat - 0x30)) + (d.toNat - 0x30)) % 2 ^ 32
        omega
      have hpair : ∀ s : List Byte, s.takeWhile litCharIsOctalDigit = [] → legacyOctalDigits (c :: d :: s) = [c, d] := by
        intro s hs
        rw [legacyOctalDigits, List.takeWhile_cons_of_pos hc, List.takeWhile_cons_of_pos hd, hs]
        show (if _ then [c, d] else [c, d]) = [c, d]
        split
        · rfl
        · rfl
      simp only [hd, if_true]
      cases s with
      | nil =>
        rw [hpair [] rfl, ← htwo]
        rfl
      | cons e s =>
        dsimp only
        by_cases he : litCharIsOctalDigit e = true
        · have he' := octalDigit_bounds he
          have hthree : (digitValue c * 8#32 + digitValue d) * 8#32 + digitValue e =
              BitVec.ofNat 32 (digitsNumber 8 0 [c, d, e]) := by
            have height : (8#32 : BitVec 32).toNat = 8 := rfl
            apply BitVec.eq_of_toNat_eq
            rw [htwo, BitVec.toNat_add, BitVec.toNat_mul, height, toNat_octalValue he, BitVec.toNat_ofNat,
              BitVec.toNat_ofNat]
            show ((8 * (8 * 0 + (c.toNat - 0x30)) + (d.toNat - 0x30)) % 2 ^ 32 * 8 % 2 ^ 32 + (e.toNat - 0x30)) % 2 ^ 32 =
              (8 * (8 * (8 * 0 + (c.toNat - 0x30)) + (d.toNat - 0x30)) + (e.toNat - 0x30)) % 2 ^ 32
            omega
          have hdigits : legacyOctalDigits (c :: d :: e :: s) =
              if digitsNumber 8 0 [c, d, e] ≤ 0xff then [c, d, e] else [c, d] := by
            rw [legacyOctalDigits, List.takeWhile_cons_of_pos hc, List.takeWhile_cons_of_pos hd,
              List.takeWhile_cons_of_pos he]
            rfl
          have hle : (digitValue c * 8#32 + digitValue d) * 8#32 + digitValue e ≤ 0xff#32 ↔
              digitsNumber 8 0 [c, d, e] ≤ 0xff := by
            have hff : (0xff#32 : BitVec 32).toNat = 0xff := rfl
            have hlt : digitsNumber 8 0 [c, d, e] < 2 ^ 32 := by
              show 8 * (8 * (8 * 0 + (c.toNat - 0x30)) + (d.toNat - 0x30)) + (e.toNat - 0x30) < 2 ^ 32
              omega
            rw [hthree, BitVec.le_def, BitVec.toNat_ofNat, Nat.mod_eq_of_lt hlt, hff]
          rw [if_pos he, hdigits]
          by_cases hbyte : digitsNumber 8 0 [c, d, e] ≤ 0xff
          · rw [if_pos (hle.mpr hbyte), if_pos hbyte, hthree]
            rfl
          · rw [if_neg (fun h => hbyte (hle.mp h)), if_neg hbyte, htwo]
            rfl
        · rw [if_neg he, hpair (e :: s) (List.takeWhile_cons_of_neg he), ← htwo]
          rfl
    · rw [hsingle (d :: s) (List.takeWhile_cons_of_neg hd), ← hone]
      simp only [hd, Bool.false_eq_true, if_false]
      rfl

/-! ## Decimal escapes -/

/-- A decimal escape that does not begin with zero, as it is prescribed: a backreference to one of the groups; otherwise
a syntax error in full unicode mode, and a legacy octal escape or the digit itself without it. -/
def decimalEscape (groups : Nat) (l : Lexer) (b : Byte) (tail : List Byte) : Except Failure Lexer :=
  if decimalNumber (b :: tail) ≤ groups then
    withQuantifier { l with
      inputCurr := (b :: tail).dropWhile litCharIsDecimalDigit
      token := { l.token with type := .backreference, value := BitVec.ofNat 32 (decimalNumber (b :: tail)) } }
  else if l.flags.unicode then .error (.syntaxError .invalidEscapeSequence)
  else if litCharIsOctalDigit b then
    withQuantifier (l.charToken (BitVec.ofNat 32 (digitsNumber 8 0 (legacyOctalDigits (b :: tail))))
      ((b :: tail).drop (legacyOctalDigits (b :: tail)).length))
  else withQuantifier (l.charToken (b.setWidth 32) tail)

/-- Of the last two code units none opens a group that the scanner counts. -/
theorem scanUnits_le (isCharClass : Bool) (us : List CodeUnit) : scanUnits isCharClass us ≤ us.length - 1 := by
  induction isCharClass, us using scanUnits.induct with
  | case1 => exact Nat.le_refl _
  | case2 b => exact Nat.le_refl _
  | case3 b v rest ih =>
    rw [scanUnits_escape, List.length_cons, List.length_cons]
    omega
  | case4 b us _ ih =>
    rw [scanUnits_open, List.length_cons]
    omega
  | case5 b us _ _ ih =>
    rw [scanUnits_close, List.length_cons]
    omega
  | case6 b _ _ _ => exact Nat.le_refl _
  | case7 b v rest hcond _ _ _ ih =>
    rw [scanUnits_paren, if_pos hcond, List.length_cons]
    rw [List.length_cons] at ih ⊢
    omega
  | case8 b v rest hcond _ _ _ ih =>
    rw [scanUnits_paren, if_neg hcond, List.length_cons]
    omega
  | case9 b u us h1 h2 h3 h4 ih =>
    rw [scanUnits_plain ⟨h1, h2, h3, h4⟩, List.length_cons]
    omega

/-- A decimal escape is a backreference when the pattern has the group. -/
theorem reParseNextToken_decimal {l : Lexer} {us : List CodeUnit} {b : Byte} {tail : List Byte}
    (hstart : l.inputStart = cesu8 us) (hsize : (cesu8 us).length < 2 ^ 32) (hcounted : l.Counted)
    (hcurr : l.inputCurr = 0x5c#8 :: b :: tail) (hlow : 0x30#8 < b) (hhigh : b ≤ 0x39#8) :
    reParseNextToken l = decimalEscape (reCountGroups (cesu8 us)) l.counting b tail := by
  have hgroups : reCountGroups (cesu8 us) < 2 ^ 32 - 1 := by
    have h1 := scanUnits_le false us
    have h2 := length_le_cesu8 us
    rw [reCountGroups_cesu8]
    omega
  have hcount : l.groupsCount.getD (reCountGroups l.inputStart) = reCountGroups (cesu8 us) := by
    cases hgroupsCount : l.groupsCount with
    | none => rw [Option.getD_none, hstart]
    | some n => rw [Option.getD_some, hcounted n hgroupsCount, hstart]
  have hdigit : litCharIsDecimalDigit b = true := by
    simp only [litCharIsDecimalDigit, Bool.and_eq_true, decide_eq_true_eq]
    exact ⟨BitVec.le_of_lt hlow, hhigh⟩
  have hvalue : (litParseDecimal (b :: tail)).1 ≤ BitVec.ofNat 32 (reCountGroups (cesu8 us)) ↔
      decimalNumber (b :: tail) ≤ reCountGroups (cesu8 us) := by
    rw [litParseDecimal_eq hdigit, BitVec.le_def, BitVec.toNat_ofNat, BitVec.toNat_ofNat]
    omega
  rw [reParseNextToken.eq_def, hcurr]
  dsimp only
  show parseBackslash { l with inputCurr := b :: tail } (b :: tail) = _
  rw [parseBackslash.eq_def]
  dsimp only
  rw [if_pos ⟨hlow, hhigh⟩, hcount, decimalEscape]
  by_cases hle : decimalNumber (b :: tail) ≤ reCountGroups (cesu8 us)
  · rw [if_pos (hvalue.mpr hle), if_pos hle, litParseDecimal_eq hdigit, Nat.min_eq_left (by omega), Lexer.counting, hcount]
  · have hb : b ≠ 0x62#8 := by
      intro h
      rw [h] at hhigh
      exact absurd hhigh (by decide)
    have hB : b ≠ 0x42#8 := by
      intro h
      rw [h] at hhigh
      exact absurd hhigh (by decide)
    have hzero : ¬(b = 0x30#8 ∧ (tail.head?.map litCharIsDecimalDigit).getD false = false) := by
      rintro ⟨h, -⟩
      rw [h] at hlow
      exact absurd hlow (by decide)
    rw [if_neg (fun h => hle (hvalue.mp h)), if_neg hle, parseBackslash.parseEscape, if_neg hb, if_neg hB,
      reParseCharEscape]
    dsimp only
    rw [if_pos hdigit, parseDigitEscape, if_neg hzero, Lexer.counting, hcount]
    by_cases hunicode : l.flags.unicode = true
    · rw [if_pos hunicode, if_pos hunicode]
      rfl
    · rw [if_neg hunicode, if_neg hunicode]
      by_cases hoctal : litCharIsOctalDigit b = true
      · rw [if_pos hoctal, if_pos hoctal, reParseOctal_eq hoctal]
        rfl
      · rw [if_neg hoctal, if_neg hoctal]
        rfl

/-! ## Backreferences -/

mutual

/-- The captures that a term refers to. -/
def Term.references : Term → List (BitVec 32)
  | .backreference idx => [idx]
  | .group _ body => altsReferences body
  | .lookahead _ body => altsReferences body
  | .assertion _ => []
  | .atom _ _ => []

/-- The captures that an alternative refers to. -/
def termsReferences : List Term → List (BitVec 32)
  | [] => []
  | term :: terms => Term.references term ++ termsReferences terms

/-- The captures that a body refers to. -/
def altsReferences : List (List Term) → List (BitVec 32)
  | [] => []
  | terms :: alts => termsReferences terms ++ altsReferences alts

end

section

variable {tables : CaseTables} {unicode : Bool} {captures nonCaptures : Nat}

mutual

theorem Term.Valid.references {term : Term} (h : term.Valid tables unicode captures nonCaptures) :
    ∀ n ∈ term.references, 0 < n.toNat ∧ n.toNat < captures := by
  cases term with
  | backreference idx =>
    rw [Term.Valid] at h
    intro n hn
    rw [Term.references, List.mem_singleton] at hn
    rw [hn]
    exact h
  | group group body =>
    rw [Term.Valid] at h
    rw [Term.references]
    exact altsValid_references h.2
  | lookahead lookahead body =>
    rw [Term.Valid] at h
    rw [Term.references]
    exact altsValid_references h.2
  | assertion assertion =>
    rw [Term.references]
    exact fun _ hn => (List.not_mem_nil hn).elim
  | atom atom quantifier =>
    rw [Term.references]
    exact fun _ hn => (List.not_mem_nil hn).elim

theorem termsValid_references {terms : List Term} (h : termsValid tables unicode captures nonCaptures terms) :
    ∀ n ∈ termsReferences terms, 0 < n.toNat ∧ n.toNat < captures := by
  cases terms with
  | nil =>
    rw [termsReferences]
    exact fun _ hn => (List.not_mem_nil hn).elim
  | cons term terms =>
    rw [termsValid] at h
    rw [termsReferences]
    intro n hn
    rcases List.mem_append.mp hn with hn | hn
    · exact h.1.references n hn
    · exact termsValid_references h.2 n hn

theorem altsValid_references {alts : List (List Term)} (h : altsValid tables unicode captures nonCaptures alts) :
    ∀ n ∈ altsReferences alts, 0 < n.toNat ∧ n.toNat < captures := by
  cases alts with
  | nil =>
    rw [altsReferences]
    exact fun _ hn => (List.not_mem_nil hn).elim
  | cons terms alts =>
    rw [altsValid] at h
    rw [altsReferences]
    intro n hn
    rcases List.mem_append.mp hn with hn | hn
    · exact termsValid_references h.1 n hn
    · exact altsValid_references h.2 n hn

end

end

/-- The quick count of an accepted pattern is the number of its capturing groups. Every decimal escape is read as it is
prescribed for a pattern with so many groups, and every backreference is to a capture in the table. -/
theorem reCountGroups_exact {tables : CaseTables} {heap : Heap} {flags : Flags} {us : List CodeUnit}
    (hsize : (cesu8 us).length < 2 ^ 32) {compiled : CompiledCode}
    (h : reCompileBytecode tables heap (cesu8 us) flags = .ok compiled) :
    compiled.capturesCount = reCountGroups (cesu8 us) + 1 ∧
    (∀ (l : Lexer) (b : Byte) (tail : List Byte), l.inputStart = cesu8 us → l.Counted →
      l.inputCurr = 0x5c#8 :: b :: tail → 0x30#8 < b → b ≤ 0x39#8 →
      reParseNextToken l = decimalEscape (compiled.capturesCount - 1) l.counting b tail) ∧
    ∃ alts, compiled.code = altsBytes flags.unicode alts ++ [Opcode.eof.toByte] ∧
      ∀ n ∈ altsReferences alts, 0 < n.toNat ∧ n.toNat < compiled.capturesCount := by
  obtain ⟨alts, p, htree, -, hcode, -, hcaptures, -, -⟩ := reCompileBytecode_layout h
  have hcount := parseTree_count htree
  refine ⟨hcaptures.trans hcount, ?_, alts, hcode, ?_⟩
  · intro l b tail hstart hcounted hcurr hlow hhigh
    rw [hcaptures, hcount, Nat.add_sub_cancel]
    exact reParseNextToken_decimal hstart hsize hcounted hcurr hlow hhigh
  · rw [hcaptures]
    exact altsValid_references (parseTree_valid htree)

/-- The pattern `(a)\1`. -/
def pairPattern : List CodeUnit := [0x28#16, 0x61#16, 0x29#16, 0x5c#16, 0x31#16]

/-- Its byte code: a group around a character, and the backreference to the group. -/
def pairCode : CompiledCode where
  code := [4#8, 1#8, 1#8, 1#8, 26#8, 97#8, 6#8, 1#8, 1#8, 2#8, 13#8, 1#8, 0#8]
  capturesCount := 2
  nonCapturesCount := 0
  flags := {}

/-- The scanner finds the group of the pattern. -/
theorem reCountGroups_pair : pairCode.capturesCount = reCountGroups (cesu8 pairPattern) + 1 :=
  (@reCountGroups_exact asciiTables wideHeap {} pairPattern (by decide) pairCode rfl).1

end Regexp
end JJS
