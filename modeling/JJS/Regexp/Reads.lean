import JJS.Regexp.Scan

/-!
# JJS.Regexp.Reads

What reading a token does to the pattern. Behind every token the scanner finds as many groups in the rest as in front of
the token, up to the group that the token opens (`reParseNextToken_reads`). A backreference is one of the groups that
the scanner finds.
-/

namespace JJS
namespace Regexp

open Utf8 Lit Strings Outcome

/-! ## Digits and letters -/

theorem plain_byte {c : Byte} (h : c.toNat < 0x5b ∧ c.toNat ≠ 0x28 ∨ 0x5d < c.toNat) : Plain (c.setWidth 16) := by
  have hne : ∀ k : CodeUnit, c.toNat ≠ k.toNat → c.setWidth 16 ≠ k := by
    intro k hk hc
    apply hk
    rw [← hc, BitVec.toNat_setWidth]
    omega
  refine ⟨hne _ ?_, hne _ ?_, hne _ ?_, hne _ ?_⟩
  · show c.toNat ≠ 0x5c
    omega
  · show c.toNat ≠ 0x5b
    omega
  · show c.toNat ≠ 0x5d
    omega
  · show c.toNat ≠ 0x28
    omega

theorem decimalDigit_bounds {c : Byte} (h : litCharIsDecimalDigit c = true) : 0x30 ≤ c.toNat ∧ c.toNat ≤ 0x39 := by
  simp only [litCharIsDecimalDigit, Bool.and_eq_true, decide_eq_true_eq, BitVec.le_def] at h
  exact h

theorem hexDigit_bounds {c : Byte} (h : litCharIsHexDigit c = true) :
    0x30 ≤ c.toNat ∧ c.toNat ≤ 0x39 ∨ 0x41 ≤ c.toNat ∧ c.toNat ≤ 0x46 ∨ 0x61 ≤ c.toNat ∧ c.toNat ≤ 0x66 := by
  revert c
  decide +kernel

section

variable {a : Bool} {s rest : List Byte}

theorem Scans.decimalDigit {c : Byte} (h : litCharIsDecimalDigit c = true) : Scans 0 a a (c :: s) s := by
  have hc := decimalDigit_bounds h
  exact Scans.plain (by omega) (plain_byte (by omega))

theorem Scans.hexDigit {c : Byte} (h : litCharIsHexDigit c = true) : Scans 0 a a (c :: s) s := by
  have hc := hexDigit_bounds h
  exact Scans.plain (by omega) (plain_byte (by omega))

theorem Scans.octalDigit {c : Byte} (h : litCharIsOctalDigit c = true) : Scans 0 a a (c :: s) s := by
  simp only [litCharIsOctalDigit, Bool.and_eq_true, decide_eq_true_eq, BitVec.le_def] at h
  have hc : c.toNat ≤ 0x37 := h.2
  have hc' : 0x30 ≤ c.toNat := h.1
  exact Scans.plain (by omega) (plain_byte (by omega))

/-- The scanner goes over a part of the pattern, of which nothing is longer. -/
def Skips (s s' : List Byte) : Prop := (∀ a, Scans 0 a a s s') ∧ s'.length ≤ s.length

theorem Skips.refl : Skips s s := ⟨fun _ => Scans.refl, Nat.le_refl _⟩

theorem Skips.trans {s' s'' : List Byte} (h : Skips s s') (h' : Skips s' s'') : Skips s s'' :=
  ⟨fun a => (h.1 a).trans (h'.1 a), Nat.le_trans h'.2 h.2⟩

theorem Skips.cons {c : Byte} {s' : List Byte} (hc : ∀ a s, Scans 0 a a (c :: s) s) (h : Skips s s') :
    Skips (c :: s) s' :=
  ⟨fun a => (hc a s).trans (h.1 a), Nat.le_trans h.2 (by rw [List.length_cons]; exact Nat.le_succ _)⟩

theorem Skips.byte {c : Byte} (hc : c.toNat < 0x5b ∧ c.toNat ≠ 0x28 ∨ 0x5d < c.toNat ∧ c.toNat < 0x80) :
    Skips (c :: s) s :=
  Skips.refl.cons fun _ _ => Scans.plain (by omega) (plain_byte (by omega))

theorem Skips.behindByte {c : Byte} (hc : c.toNat < 0x5b ∧ c.toNat ≠ 0x28 ∨ 0x5d < c.toNat ∧ c.toNat < 0x80)
    (h : behindByte c s = some rest) : Skips s rest := by
  cases s with
  | nil => cases h
  | cons d s =>
    rw [Regexp.behindByte] at h
    split at h
    · rename_i hd
      cases h
      rw [hd]
      exact Skips.byte hc
    · cases h

theorem parseDecimalLoop_skips (s : List Byte) (value : BitVec 32) : Skips s (parseDecimalLoop value s).2 := by
  induction s generalizing value with
  | nil => exact Skips.refl
  | cons c s ih =>
    rw [parseDecimalLoop]
    split
    · rename_i hc
      dsimp only
      split
      · exact (ih _).cons fun _ _ => Scans.decimalDigit hc
      · exact (ih _).cons fun _ _ => Scans.decimalDigit hc
    · exact Skips.refl

theorem litParseDecimal_skips {c : Byte} (hc : litCharIsDecimalDigit c = true) (s : List Byte) :
    Skips (c :: s) (litParseDecimal (c :: s)).2 :=
  (parseDecimalLoop_skips s _).cons fun _ _ => Scans.decimalDigit hc

/-! ## Quantifiers -/

theorem braceBounds_skips {qmin qmax : BitVec 32} (h : braceBounds s = some (qmin, qmax, rest)) : Skips s rest := by
  cases s with
  | nil => cases h
  | cons c s =>
    rw [braceBounds] at h
    split at h
    · cases h
    rename_i hc
    have hdecimal : litCharIsDecimalDigit c = true := by simpa using hc
    have hmin := litParseDecimal_skips hdecimal s
    rcases hparse : litParseDecimal (c :: s) with ⟨value, current⟩
    rw [hparse] at h hmin
    dsimp only at h hmin
    cases current with
    | nil => cases h
    | cons ch current =>
      dsimp only at h
      split at h
      · rename_i hch
        cases h
        rw [hch] at hmin
        exact hmin.trans (Skips.byte (by decide))
      split at h
      · rename_i hch
        rw [hch] at hmin
        cases current with
        | nil => cases h
        | cons d current =>
          have hmax : Skips (d :: current)
              (if litCharIsDecimalDigit d then litParseDecimal (d :: current) else (reInfinity, d :: current)).2 := by
            split
            · rename_i hd
              exact litParseDecimal_skips hd current
            · exact Skips.refl
          dsimp only at h
          generalize (if litCharIsDecimalDigit d then litParseDecimal (d :: current)
            else (reInfinity, d :: current)) = upper at h hmax
          obtain ⟨upper, current'⟩ := upper
          dsimp only at h hmax
          cases current' with
          | nil => cases h
          | cons close current' =>
            dsimp only at h
            split at h
            · cases h
            · rename_i hclose
              cases h
              rw [not_not] at hclose
              rw [hclose] at hmax
              exact (hmin.trans (Skips.byte (by decide))).trans (hmax.trans (Skips.byte (by decide)))
      · cases h

theorem quantifierBounds_skips {qmin qmax : BitVec 32} (h : quantifierBounds s = some (qmin, qmax, rest)) :
    Skips s rest := by
  cases s with
  | nil => cases h
  | cons c s =>
    rw [quantifierBounds] at h
    split at h
    · rename_i hc
      cases h
      rw [hc]
      exact Skips.byte (by decide)
    split at h
    · rename_i hc
      cases h
      rw [hc]
      exact Skips.byte (by decide)
    split at h
    · rename_i hc
      cases h
      rw [hc]
      exact Skips.byte (by decide)
    split at h
    · rename_i hc
      rw [hc]
      exact (Skips.byte (by decide)).trans (braceBounds_skips h)
    · cases h

theorem reParseLazyChar_skips (s : List Byte) : Skips s (reParseLazyChar s).2 := by
  cases s with
  | nil => exact Skips.refl
  | cons c s =>
    rw [reParseLazyChar]
    split
    · rename_i hc
      rw [hc]
      exact Skips.byte (by decide)
    · exact Skips.refl

end

/-- The fields of a lexer that no token changes, and the type of the token. -/
structure Lexer.Same (l l' : Lexer) : Prop where
  flags : l'.flags = l.flags
  inputStart : l'.inputStart = l.inputStart
  groupsCount : l'.groupsCount = l.groupsCount

theorem Lexer.Same.refl {l : Lexer} : l.Same l := ⟨rfl, rfl, rfl⟩

theorem Lexer.Same.trans {l l' l'' : Lexer} (h : l.Same l') (h' : l'.Same l'') : l.Same l'' :=
  ⟨h'.flags.trans h.flags, h'.inputStart.trans h.inputStart, h'.groupsCount.trans h.groupsCount⟩

/-- A quantifier is read behind the token, of which only the bounds change. -/
theorem reParseQuantifier_reads (l : Lexer) :
    l.Same (reParseQuantifier l).2 ∧ Skips l.inputCurr (reParseQuantifier l).2.inputCurr ∧
      (reParseQuantifier l).2.token.type = l.token.type ∧ (reParseQuantifier l).2.token.value = l.token.value := by
  rw [reParseQuantifier]
  split
  · rename_i qmin qmax rest hbounds
    exact ⟨⟨rfl, rfl, rfl⟩, (quantifierBounds_skips hbounds).trans (reParseLazyChar_skips rest), rfl, rfl⟩
  · exact ⟨⟨rfl, rfl, rfl⟩, Skips.refl, rfl, rfl⟩

theorem withQuantifier_reads {l l' : Lexer} (h : withQuantifier l = .ok l') :
    l.Same l' ∧ Skips l.inputCurr l'.inputCurr ∧ l'.token.type = l.token.type ∧ l'.token.value = l.token.value ∧
      l'.token.qmin ≤ l'.token.qmax := by
  rw [withQuantifier, reCheckQuantifier] at h
  split at h
  · cases h
  · rename_i hle
    cases h
    obtain ⟨hsame, hskips, htype, hvalue⟩ := reParseQuantifier_reads l
    exact ⟨hsame, hskips, htype, hvalue, BitVec.not_lt.mp hle⟩

/-! ## Escapes -/

/-- A character that a pattern can have: a code point in full unicode mode, a code unit otherwise. -/
def CharValue (unicode : Bool) (cp : CodePoint) : Prop := cp.toNat < if unicode then 0x110000 else 0x10000

theorem CharValue.of_lt {unicode : Bool} {cp : CodePoint} (h : cp.toNat < 0x10000) : CharValue unicode cp := by
  cases unicode with
  | true => exact Nat.lt_trans h (by decide)
  | false => exact h

theorem CharValue.unit (unicode : Bool) (u : CodeUnit) : CharValue unicode (u.setWidth 32) := by
  apply CharValue.of_lt
  rw [BitVec.toNat_setWidth]
  have := u.isLt
  omega

theorem CharValue.pair {u v : CodeUnit} (hu : litIsHighSurrogate u = true) (hv : litIsLowSurrogate v = true) :
    CharValue true (litConvertSurrogatePairToCodePoint u v) := by
  rw [CharValue, toNat_surrogatePair ((litIsHighSurrogate_iff u).mp hu) ((litIsLowSurrogate_iff v).mp hv)]
  exact (pairPoint u v).isLt

/-- What reading an escape does, from behind its first character on. Of the letter `c` without a letter behind it only
the backslash is read. -/
structure Escaped (s : List Byte) (l l' : Lexer) : Prop where
  same : l.Same l'
  scans : ∀ a, Scans 0 a a s l'.inputCurr
  length : l'.inputCurr.length ≤ s.length + 1
  value : CharValue l.flags.unicode l'.token.value
  type : l'.token.type = .char ∨ l'.token.type = .classEscape ∧ ∃ e : ClassEscape, l'.token.value = e.toByte.setWidth 32

theorem Escaped.charToken {s r : List Byte} {l : Lexer} {value : CodePoint} (hvalue : CharValue l.flags.unicode value)
    (h : Skips s r) : Escaped s l (l.charToken value r) :=
  ⟨⟨rfl, rfl, rfl⟩, h.1, Nat.le_succ_of_le h.2, hvalue, Or.inl rfl⟩

theorem Escaped.escapeToken {s : List Byte} {l : Lexer} (e : ClassEscape) : Escaped s l (l.escapeToken e s) := by
  refine ⟨⟨rfl, rfl, rfl⟩, fun _ => Scans.refl, Nat.le_succ _, CharValue.of_lt ?_, Or.inr ⟨rfl, e, rfl⟩⟩
  show (e.toByte.setWidth 32).toNat < 0x10000
  rw [BitVec.toNat_setWidth]
  have := e.toByte.isLt
  omega

theorem digitValue_le {c : Byte} (hc : litCharIsOctalDigit c = true) : (digitValue c).toNat ≤ 7 := by
  simp only [litCharIsOctalDigit, Bool.and_eq_true, decide_eq_true_eq, BitVec.le_def] at hc
  have hle : c.toNat ≤ 0x37 := hc.2
  have hge : 0x30 ≤ c.toNat := hc.1
  rw [digitValue, BitVec.toNat_sub, BitVec.toNat_setWidth, BitVec.toNat_ofNat]
  omega

/-- Three octal digits stand for a byte. -/
theorem reParseOctal_lt {c : Byte} (hc : litCharIsOctalDigit c = true) (s : List Byte) :
    (reParseOctal (c :: s)).1.toNat < 0x100 := by
  have hc' := digitValue_le hc
  rw [reParseOctal.eq_def]
  cases s with
  | nil => exact Nat.lt_of_le_of_lt hc' (by decide)
  | cons d s =>
    dsimp only
    by_cases hd : litCharIsOctalDigit d = true
    · simp only [hd, if_true]
      have hvalue : (digitValue c * 8#32 + digitValue d).toNat < 0x100 := by
        have hd' := digitValue_le hd
        rw [BitVec.toNat_add, BitVec.toNat_mul, BitVec.toNat_ofNat]
        omega
      -- the third digit is read if the value stays a byte
      cases s with
      | nil => exact hvalue
      | cons e s =>
        dsimp only
        split
        · split
          · rename_i hle
            exact Nat.lt_of_le_of_lt (BitVec.le_def.mp hle) (by decide)
          · exact hvalue
        · exact hvalue
    · simp only [hd, Bool.false_eq_true, if_false]
      exact Nat.lt_of_le_of_lt hc' (by decide)

theorem litCharHexToInt_lt {c : Byte} (h : litCharIsHexDigit c = true) : litCharHexToInt c < 16 := by
  have hbounds := hexDigit_bounds h
  rw [litCharHexToInt]
  split
  · rename_i hdigit
    have := decimalDigit_bounds hdigit
    omega
  · rename_i hdigit
    have hdecimal : ¬(0x30 ≤ c.toNat ∧ c.toNat ≤ 0x39) := by
      intro hc
      apply hdigit
      simp only [litCharIsDecimalDigit, Bool.and_eq_true, decide_eq_true_eq, BitVec.le_def]
      exact hc
    omega

theorem hexLookupLoop_lt {digits : List Byte} {value n : Nat} (h : hexLookupLoop value digits = some n) :
    n < (value + 1) * 16 ^ digits.length := by
  induction digits generalizing value with
  | nil =>
    cases h
    rw [List.length_nil, Nat.pow_zero, Nat.mul_one]
    exact Nat.lt_succ_self _
  | cons c digits ih =>
    rw [hexLookupLoop] at h
    split at h
    · rename_i hc
      have hdigit := litCharHexToInt_lt hc
      calc n < (value * 16 + litCharHexToInt c + 1) * 16 ^ digits.length := ih h
        _ ≤ ((value + 1) * 16) * 16 ^ digits.length := Nat.mul_le_mul_right _ (by omega)
        _ = (value + 1) * 16 ^ (c :: digits).length := by rw [List.length_cons, Nat.pow_succ', Nat.mul_assoc]
    · cases h

theorem litCharHexLookup_lt {s : List Byte} {k n : Nat} (h : litCharHexLookup s k = some n) : n < 16 ^ k := by
  rw [litCharHexLookup] at h
  split at h
  · cases h
  · rename_i hlen
    have hlt := hexLookupLoop_lt h
    rw [List.length_take, Nat.min_eq_left (by omega), Nat.zero_add, Nat.one_mul] at hlt
    exact hlt

theorem reParseOctal_skips {c : Byte} (hc : litCharIsOctalDigit c = true) (s : List Byte) :
    Skips (c :: s) (reParseOctal (c :: s)).2 := by
  have hdigit : ∀ {d : Byte} {r : List Byte}, litCharIsOctalDigit d = true → Skips (d :: r) r :=
    fun hd => Skips.refl.cons fun _ _ => Scans.octalDigit hd
  refine (hdigit hc).trans ?_
  rw [reParseOctal.eq_def]
  cases s with
  | nil => exact Skips.refl
  | cons d s =>
    dsimp only
    by_cases hd : litCharIsOctalDigit d = true
    · simp only [hd, if_true]
      refine (hdigit hd).trans ?_
      cases s with
      | nil => exact Skips.refl
      | cons e s =>
        dsimp only
        split
        · rename_i he
          split
          · exact hdigit he
          · exact Skips.refl
        · exact Skips.refl
    · simp only [hd, Bool.false_eq_true, if_false]
      exact Skips.refl

theorem hexLookupLoop_skips {digits : List Byte} {value n : Nat} (h : hexLookupLoop value digits = some n)
    (r : List Byte) : Skips (digits ++ r) r := by
  induction digits generalizing value with
  | nil => exact Skips.refl
  | cons c digits ih =>
    rw [hexLookupLoop] at h
    split at h
    · rename_i hc
      exact (ih h).cons fun _ _ => Scans.hexDigit hc
    · cases h

theorem litCharHexLookup_skips {s : List Byte} {k n : Nat} (h : litCharHexLookup s k = some n) : Skips s (s.drop k) := by
  rw [litCharHexLookup] at h
  split at h
  · cases h
  · have hskips := hexLookupLoop_skips h (s.drop k)
    rw [List.take_append_drop] at hskips
    exact hskips

theorem codePointDigits_skips {s rest : List Byte} {cp value : CodePoint} (hcp : cp.toNat < 0x110000)
    (h : codePointDigits cp s = .ok (value, rest)) : Skips s rest ∧ value.toNat < 0x110000 := by
  induction s generalizing cp with
  | nil =>
    cases h
    exact ⟨Skips.refl, hcp⟩
  | cons c s ih =>
    rw [codePointDigits] at h
    split at h
    · rename_i hc
      dsimp only at h
      split at h
      · cases h
      · rename_i hle
        have hcp' := BitVec.le_def.mp (BitVec.not_lt.mp hle)
        obtain ⟨hskips, hvalue⟩ := ih (Nat.lt_of_le_of_lt hcp' (by decide)) h
        exact ⟨hskips.cons fun _ _ => Scans.hexDigit hc, hvalue⟩
    · cases h
      exact ⟨Skips.refl, hcp⟩

theorem bracedCodePoint_skips {s rest : List Byte} {value : CodePoint} (h : bracedCodePoint s = .ok (value, rest)) :
    Skips s rest ∧ CharValue true value := by
  rw [bracedCodePoint] at h
  split at h
  · rename_i d r hopen
    split at h
    · rename_i hd
      obtain ⟨⟨cp, r'⟩, hdigits, h⟩ := bind_eq_ok h
      dsimp only at h
      split at h
      · rename_i r'' hclose
        cases h
        have hfirst : (BitVec.ofNat 32 (litCharHexToInt d)).toNat < 0x110000 := by
          have := litCharHexToInt_lt hd
          rw [BitVec.toNat_ofNat]
          omega
        obtain ⟨hskips, hvalue⟩ := codePointDigits_skips hfirst hdigits
        exact ⟨(Skips.behindByte (by decide) hopen).trans
          ((hskips.cons fun _ _ => Scans.hexDigit hd).trans (Skips.behindByte (by decide) hclose)), hvalue⟩
      · cases h
    · cases h
  · cases h

theorem escapedLowSurrogate_skips {unicode : Bool} {high : BitVec 32} {s rest : List Byte} {value : CodePoint}
    (h : escapedLowSurrogate unicode high s = some (value, rest)) : Skips s rest ∧ CharValue unicode value := by
  rw [escapedLowSurrogate] at h
  split at h
  · rename_i hcond
    obtain ⟨hunicode, hhigh, -, hesc, hu⟩ := hcond
    split at h
    · rename_i low hlow
      split at h
      · rename_i hsurrogate
        cases h
        refine ⟨?_, hunicode ▸ CharValue.pair hhigh hsurrogate⟩
        cases s with
        | nil => cases hesc
        | cons b s =>
          cases s with
          | nil => cases hu
          | cons b' s =>
            simp only [List.getElem?_cons_zero, Option.some.injEq] at hesc
            simp only [List.getElem?_cons_succ, List.getElem?_cons_zero, Option.some.injEq] at hu
            subst hesc hu
            have hdigits := litCharHexLookup_skips hlow
            refine ⟨fun a => (Scans.escape (by decide)).trans (hdigits.1 a), ?_⟩
            have hle := hdigits.2
            simp only [List.length_drop, List.length_cons] at hle ⊢
            omega
      · cases h
    · cases h
  · cases h

section

variable {l l' : Lexer} {rest : List Byte}

theorem parseDigitEscape_reads {digit : Byte} (h : parseDigitEscape l digit rest = .ok l') : Escaped rest l l' := by
  rw [parseDigitEscape] at h
  split at h
  · cases h
    exact Escaped.charToken (CharValue.of_lt (by decide)) Skips.refl
  split at h
  · cases h
  split at h
  · rename_i hoctal
    cases h
    -- the scanner is behind the first digit already
    have hskips := reParseOctal_skips hoctal rest
    have hback : ∀ a, Scans 0 a a rest (digit :: rest) := by
      intro a
      simp only [litCharIsOctalDigit, Bool.and_eq_true, decide_eq_true_eq, BitVec.le_def] at hoctal
      have hle : digit.toNat ≤ 0x37 := hoctal.2
      have hge : 0x30 ≤ digit.toNat := hoctal.1
      exact Scans.back (by omega) (plain_byte (by omega))
    refine ⟨⟨rfl, rfl, rfl⟩, fun a => (hback a).trans (hskips.1 a), hskips.2, CharValue.of_lt ?_, Or.inl rfl⟩
    exact Nat.lt_trans (reParseOctal_lt hoctal rest) (by decide)
  · cases h
    refine Escaped.charToken (CharValue.of_lt ?_) Skips.refl
    rw [BitVec.toNat_setWidth]
    have := digit.isLt
    omega

theorem parseControlEscape_reads (h : parseControlEscape l rest = .ok l') : Escaped rest l l' := by
  have hother : (if l.flags.unicode then .error (.syntaxError .invalidControlEscapeSequence)
      else .ok (l.charToken 0x5c#32 (0x63#8 :: rest)) : Except Failure Lexer) = .ok l' → Escaped rest l l' := by
    intro h
    split at h
    · cases h
    · cases h
      exact ⟨⟨rfl, rfl, rfl⟩, fun a => Scans.back (by decide) (plain_byte (by decide)), Nat.le_refl _,
        CharValue.of_lt (by decide : (0x5c#32).toNat < 0x10000), Or.inl rfl⟩
  rw [parseControlEscape.eq_def] at h
  dsimp only at h
  cases rest with
  | nil => exact hother h
  | cons ch r =>
    dsimp only at h
    split at h
    · rename_i hletter
      cases h
      simp only [BitVec.le_def] at hletter
      refine Escaped.charToken (CharValue.of_lt ?_) (Skips.byte ?_)
      · rw [BitVec.toNat_ofNat]
        omega
      have hbounds : 0x41 ≤ ch.toNat ∧ ch.toNat ≤ 0x5a ∨ 0x61 ≤ ch.toNat ∧ ch.toNat ≤ 0x7a := hletter
      omega
    · exact hother h

theorem parseHexEscape_reads (h : parseHexEscape l rest = .ok l') : Escaped rest l l' := by
  rw [parseHexEscape] at h
  split at h
  · rename_i value hvalue
    cases h
    refine Escaped.charToken (CharValue.of_lt ?_) (litCharHexLookup_skips hvalue)
    have := litCharHexLookup_lt hvalue
    rw [BitVec.toNat_ofNat]
    omega
  · split at h
    · cases h
    · cases h
      exact Escaped.charToken (CharValue.of_lt (by decide)) Skips.refl

theorem parseUnicodeEscape_reads (h : parseUnicodeEscape l rest = .ok l') : Escaped rest l l' := by
  rw [parseUnicodeEscape] at h
  split at h
  · rename_i value hvalue
    have hdigits := litCharHexLookup_skips hvalue
    split at h
    · rename_i cp r hlow
      cases h
      obtain ⟨hskips, hchar⟩ := escapedLowSurrogate_skips hlow
      exact Escaped.charToken hchar (hdigits.trans hskips)
    · cases h
      refine Escaped.charToken (CharValue.of_lt ?_) hdigits
      have := litCharHexLookup_lt hvalue
      rw [BitVec.toNat_ofNat]
      omega
  · split at h
    · rename_i hunicode
      obtain ⟨⟨cp, r⟩, hbraced, h⟩ := bind_eq_ok h
      cases h
      obtain ⟨hskips, hchar⟩ := bracedCodePoint_skips hbraced
      exact Escaped.charToken (hunicode ▸ hchar) hskips
    · cases h
      exact Escaped.charToken (CharValue.of_lt (by decide)) Skips.refl

/-- An escape goes over the character behind the backslash, as the scanner does. -/
theorem reParseCharEscape_reads {u : CodeUnit} {us : List CodeUnit} (hl : l.inputCurr = cesu8 (u :: us))
    (h : reParseCharEscape l = .ok l') : Escaped (cesu8 us) l l' := by
  obtain ⟨b, s, hcurr⟩ : ∃ b s, l.inputCurr = b :: s := by
    rw [hl, cesu8_cons]
    obtain ⟨e, t, he, _, _⟩ := encode_bytes u
    exact ⟨e, t ++ cesu8 us, by rw [he, List.cons_append]⟩
  rw [reParseCharEscape, hcurr] at h
  rw [hcurr] at hl
  dsimp only at h
  rcases ite_eq_iff.mp h with ⟨hdigit, h⟩ | ⟨-, h⟩
  · have hb := decimalDigit_bounds hdigit
    obtain ⟨us', hus, hs⟩ := cesu8_eq_cons (by omega) hl
    obtain ⟨-, rfl⟩ := List.cons.inj hus
    rw [← hs]
    exact parseDigitEscape_reads h
  obtain ⟨⟨ch, r⟩, hread, h⟩ := bind_eq_ok h
  obtain ⟨us', hus, rfl⟩ := readInput_cesu8 hread hl
  obtain ⟨rfl, rfl⟩ := List.cons.inj hus
  dsimp only at h
  have hescape : ∀ {p : Prop} [Decidable p] {e : ClassEscape} {y : Except Failure Lexer},
      (if p then .ok (l.escapeToken e (cesu8 us)) else y) = .ok l' → Escaped (cesu8 us) l l' ∨ y = .ok l' := by
    intro p _ e y hif
    rcases ite_eq_iff.mp hif with ⟨-, hok⟩ | ⟨-, hy⟩
    · cases hok
      exact Or.inl (Escaped.escapeToken _)
    · exact Or.inr hy
  have hchar : ∀ {p : Prop} [Decidable p] {value : CodePoint} {y : Except Failure Lexer}, value.toNat < 0x10000 →
      (if p then .ok (l.charToken value (cesu8 us)) else y) = .ok l' → Escaped (cesu8 us) l l' ∨ y = .ok l' := by
    intro p _ value y hvalue hif
    rcases ite_eq_iff.mp hif with ⟨-, hok⟩ | ⟨-, hy⟩
    · cases hok
      exact Or.inl (Escaped.charToken (CharValue.of_lt hvalue) Skips.refl)
    · exact Or.inr hy
  iterate 6
    rcases hescape h with hdone | h
    · exact hdone
  iterate 5
    rcases hchar (by decide) h with hdone | h
    · exact hdone
  rcases ite_eq_iff.mp h with ⟨-, h⟩ | ⟨-, h⟩
  · exact parseControlEscape_reads h
  rcases ite_eq_iff.mp h with ⟨-, h⟩ | ⟨-, h⟩
  · exact parseHexEscape_reads h
  rcases ite_eq_iff.mp h with ⟨-, h⟩ | ⟨-, h⟩
  · exact parseUnicodeEscape_reads h
  rcases ite_eq_iff.mp h with ⟨-, h⟩ | ⟨-, h⟩
  · cases h
  · cases h
    exact Escaped.charToken (CharValue.unit _ u) Skips.refl

end

/-! ## Tokens -/

/-- The number of groups is that of the scanner, once it is asked for. -/
def Lexer.Counted (l : Lexer) : Prop := ∀ n, l.groupsCount = some n → n = reCountGroups l.inputStart

/-- What reading a token does. -/
structure Advances (l l' : Lexer) : Prop where
  flags : l'.flags = l.flags
  inputStart : l'.inputStart = l.inputStart
  counted : l.Counted → l'.Counted
  scans : Scans (if l'.token.type = .startCaptureGroup then 1 else 0) false (decide (l'.token.type = .charClass))
    l.inputCurr l'.inputCurr
  shorter : l'.token.type ≠ .eof → l'.inputCurr.length < l.inputCurr.length
  eof : l'.token.type = .eof → l'.inputCurr = []
  backreference : l.Counted → l'.token.type = .backreference →
    l'.token.value ≠ 0#32 ∧ l'.token.value ≤ BitVec.ofNat 32 (reCountGroups l.inputStart)
  classEscape : l'.token.type = .classEscape → ∃ e : ClassEscape, l'.token.value = e.toByte.setWidth 32
  char : l'.token.type = .char → CharValue l.flags.unicode l'.token.value

/-- A token that opens no group and no class, and is no backreference. -/
theorem Advances.simple {l l' : Lexer} {type : TokenType} (hsame : l.Same l') (hl : l'.token.type = type)
    (htype : type ≠ .startCaptureGroup ∧ type ≠ .charClass ∧ type ≠ .eof ∧ type ≠ .backreference)
    (hescape : type = .classEscape → ∃ e : ClassEscape, l'.token.value = e.toByte.setWidth 32)
    (hchar : type = .char → CharValue l.flags.unicode l'.token.value)
    (hscans : Scans 0 false false l.inputCurr l'.inputCurr) (hshort : l'.inputCurr.length < l.inputCurr.length) :
    Advances l l' := by
  subst hl
  refine ⟨hsame.flags, hsame.inputStart, ?_, ?_, fun _ => hshort, ?_, ?_, hescape, hchar⟩
  · intro hl n hn
    rw [hsame.groupsCount] at hn
    rw [hsame.inputStart]
    exact hl n hn
  · rw [if_neg htype.1, decide_eq_false htype.2.1]
    exact hscans
  · intro h
    exact absurd h htype.2.2.1
  · intro _ h
    exact absurd h htype.2.2.2

/-- The quantifier behind a token. -/
theorem Advances.quantifier {l m l' : Lexer} (h : Advances l m) (heof : m.token.type ≠ .eof)
    (h' : withQuantifier m = .ok l') : Advances l l' := by
  obtain ⟨hsame, hskips, htype, hvalue, -⟩ := withQuantifier_reads h'
  refine ⟨hsame.flags.trans h.flags, hsame.inputStart.trans h.inputStart, ?_, ?_, ?_, ?_, ?_, ?_, ?_⟩
  · intro hl n hn
    rw [hsame.groupsCount] at hn
    rw [hsame.inputStart]
    exact h.counted hl n hn
  · have hscans := h.scans.trans (hskips.1 _)
    rw [Nat.zero_add] at hscans
    rw [htype]
    exact hscans
  · intro _
    exact Nat.lt_of_le_of_lt hskips.2 (h.shorter heof)
  · intro hc
    exact absurd (htype ▸ hc) heof
  · rw [htype, hvalue]
    exact h.backreference
  · rw [htype, hvalue]
    exact h.classEscape
  · rw [htype, hvalue]
    exact h.char

/-- The lexer once the number of groups is asked for. -/
def Lexer.counting (l : Lexer) : Lexer :=
  { l with groupsCount := some (l.groupsCount.getD (reCountGroups l.inputStart)) }

theorem Lexer.Counted.counting {l : Lexer} (h : l.Counted) : l.counting.Counted := by
  intro n hn
  cases hcount : l.groupsCount with
  | none =>
    rw [Lexer.counting, hcount] at hn
    exact (Option.some.inj hn).symm
  | some k =>
    rw [Lexer.counting, hcount] at hn
    exact (Option.some.inj hn).symm.trans (h k hcount)

/-- The number of groups is asked for before the token is read. -/
theorem Advances.count {l m l' : Lexer} (h : Advances m l') (hflags : m.flags = l.flags)
    (hstart : m.inputStart = l.inputStart) (hcurr : m.inputCurr = l.inputCurr) (hcounted : l.Counted → m.Counted) :
    Advances l l' where
  flags := h.flags.trans hflags
  inputStart := h.inputStart.trans hstart
  counted := fun hl => h.counted (hcounted hl)
  scans := hcurr ▸ h.scans
  shorter := hcurr ▸ h.shorter
  eof := h.eof
  backreference := fun hl => hstart ▸ h.backreference (hcounted hl)
  classEscape := h.classEscape
  char := hflags ▸ h.char

/-- A code unit that the scanner goes over outside of classes. -/
theorem Scans.unit {a b : Bool} {u : CodeUnit} {us : List CodeUnit} (h : scanUnits a (u :: us) = scanUnits b us) :
    Scans 0 a b (cesu8 (u :: us)) (cesu8 us) := by
  intro vs hvs
  rw [← cesu8_inj hvs]
  exact ⟨us, rfl, h⟩

theorem length_cesu8_cons (u : CodeUnit) (us : List CodeUnit) : (cesu8 us).length < (cesu8 (u :: us)).length := by
  obtain ⟨e, t, he, _, _⟩ := encode_bytes u
  rw [cesu8_cons, he, List.length_append, List.length_cons]
  omega

/-- The pattern is read up to the end of a low surrogate. -/
theorem drop_lowSurrogate {u : CodeUnit} (h : litIsLowSurrogate u = true) (us : List CodeUnit) :
    (cesu8 (u :: us)).drop 3 = cesu8 us := by
  have hu : 0xdc00 ≤ u.toNat := ((litIsLowSurrogate_iff u).mp h).1
  have hlt := u.isLt
  have hlen : (encode u.toNat).length = 3 := by
    rw [encode, if_neg (by omega), if_neg (by omega), if_pos (by omega)]
    rfl
  rw [cesu8_cons, ← hlen, List.drop_left]

theorem scanUnits_false {u : CodeUnit} (h : u ≠ 0x5c#16 ∧ u ≠ 0x5b#16 ∧ u ≠ 0x28#16) (us : List CodeUnit) :
    scanUnits false (u :: us) = scanUnits false us := by
  by_cases hclose : u = 0x5d#16
  · rw [hclose, scanUnits_close]
  · exact scanUnits_plain ⟨h.1, h.2.1, hclose, h.2.2⟩ us

theorem lowSurrogate_plain {u : CodeUnit} (h : litIsLowSurrogate u = true) : Plain u := by
  have hu : 0xdc00 ≤ u.toNat := ((litIsLowSurrogate_iff u).mp h).1
  refine ⟨?_, ?_, ?_, ?_⟩
  all_goals
    intro hc
    rw [hc] at hu
    exact absurd hu (by decide)

section

variable {l l' : Lexer} {us : List CodeUnit}

/-- A token that opens nothing. -/
theorem Advances.plainToken {type : TokenType} {r : List Byte}
    (htype : type ≠ .startCaptureGroup ∧ type ≠ .charClass ∧ type ≠ .eof ∧ type ≠ .backreference ∧
      type ≠ .classEscape ∧ type ≠ .char)
    (hscans : Scans 0 false false l.inputCurr r) (hshort : r.length < l.inputCurr.length) :
    Advances l (l.plainToken type r) :=
  Advances.simple ⟨rfl, rfl, rfl⟩ rfl ⟨htype.1, htype.2.1, htype.2.2.1, htype.2.2.2.1⟩
    (fun h => absurd h htype.2.2.2.2.1) (fun h => absurd h htype.2.2.2.2.2) hscans hshort

/-- The token for a character, and the quantifier behind it. -/
theorem Advances.charToken {value : CodePoint} {r : List Byte} (hvalue : CharValue l.flags.unicode value) (hscans : Scans 0 false false l.inputCurr r)
    (hshort : r.length < l.inputCurr.length) (h : withQuantifier (l.charToken value r) = .ok l') : Advances l l' := by
  have hchar : Advances l (l.charToken value r) :=
    Advances.simple ⟨rfl, rfl, rfl⟩ (Eq.refl TokenType.char) (by decide) (fun h => absurd h (by decide))
      (fun _ => hvalue) hscans hshort
  exact hchar.quantifier (by decide : TokenType.char ≠ .eof) h

theorem parsePlainChar_advances {ch : CodeUnit} (hch : ch ≠ 0x5c#16 ∧ ch ≠ 0x5b#16 ∧ ch ≠ 0x28#16)
    (hl : l.inputCurr = cesu8 (ch :: us)) (h : parsePlainChar l ch (cesu8 us) = .ok l') : Advances l l' := by
  have hscans : Scans 0 false false l.inputCurr (cesu8 us) := by
    rw [hl]
    exact Scans.unit (scanUnits_false hch us)
  have hshort : (cesu8 us).length < l.inputCurr.length := by
    rw [hl]
    exact length_cesu8_cons ch us
  rw [parsePlainChar] at h
  rcases ite_eq_iff.mp h with ⟨⟨hunicode, hhigh, -⟩, h⟩ | ⟨-, h⟩
  · obtain ⟨⟨next, r⟩, hread, h⟩ := bind_eq_ok h
    obtain ⟨us', rfl, rfl⟩ := readInput_cesu8 hread rfl
    rcases ite_eq_iff.mp h with ⟨hlow, h⟩ | ⟨-, h⟩
    · rw [drop_lowSurrogate hlow] at h
      exact Advances.charToken (hunicode ▸ CharValue.pair hhigh hlow)
        (hscans.trans (Scans.unit (scanUnits_plain (lowSurrogate_plain hlow) us')))
        (Nat.lt_trans (length_cesu8_cons next us') hshort) h
    · exact Advances.charToken (CharValue.unit _ ch) hscans hshort h
  · exact Advances.charToken (CharValue.unit _ ch) hscans hshort h

/-- A left parenthesis. The scanner counts it unless a question mark follows. -/
theorem parseLeftParen_advances (hl : l.inputCurr = cesu8 (0x28#16 :: us)) (h : parseLeftParen l (cesu8 us) = .ok l') :
    Advances l l' := by
  have hshort : (cesu8 us).length < l.inputCurr.length := by
    rw [hl]
    exact length_cesu8_cons _ us
  cases us with
  | nil => cases h
  | cons v us =>
    have hparen : ∀ n : Nat, (if v ≠ 0x3f#16 then 1 else 0) = n →
        Scans n false false l.inputCurr (cesu8 (v :: us)) := by
      intro n hn
      rw [hl]
      intro vs hvs
      refine ⟨v :: us, rfl, ?_⟩
      rw [← cesu8_inj hvs, scanUnits_paren, ← hn]
      simp only [and_true]
    obtain ⟨e, t, he, _, _⟩ := encode_bytes v
    have hcons : cesu8 (v :: us) = e :: (t ++ cesu8 us) := by rw [cesu8_cons, he, List.cons_append]
    rw [hcons] at h hshort hparen
    rw [parseLeftParen.eq_def] at h
    dsimp only at h
    rcases ite_eq_iff.mp h with ⟨hquestion, h⟩ | ⟨hquestion, h⟩
    · rw [hquestion] at hcons hparen hshort
      obtain ⟨us', hus', htail⟩ := cesu8_eq_cons (by decide) hcons.symm
      obtain ⟨hv, rfl⟩ := List.cons.inj hus'
      have hscans : Scans 0 false false l.inputCurr (t ++ cesu8 us) :=
        (hparen 0 (by rw [hv]; rfl)).trans (Scans.plain (by decide) (plain_byte (by decide)))
      rw [List.length_cons] at hshort
      cases htail' : t ++ cesu8 us with
      | nil =>
        rw [htail'] at h
        cases h
      | cons ch tail =>
        rw [htail'] at h hscans hshort
        rw [List.length_cons] at hshort
        dsimp only at h
        rcases ite_eq_iff.mp h with ⟨hch, h⟩ | ⟨-, h⟩
        · cases h
          rw [hch] at hscans
          exact Advances.simple ⟨rfl, rfl, rfl⟩ (Eq.refl TokenType.assertLookahead) (by decide)
            (fun h => absurd h (by decide)) (fun h => absurd h (by decide))
            (hscans.trans (Scans.plain (by decide) (plain_byte (by decide)))) (by show tail.length < _; omega)
        rcases ite_eq_iff.mp h with ⟨hch, h⟩ | ⟨-, h⟩
        · cases h
          rw [hch] at hscans
          exact Advances.simple ⟨rfl, rfl, rfl⟩ (Eq.refl TokenType.assertLookahead) (by decide)
            (fun h => absurd h (by decide)) (fun h => absurd h (by decide))
            (hscans.trans (Scans.plain (by decide) (plain_byte (by decide)))) (by show tail.length < _; omega)
        rcases ite_eq_iff.mp h with ⟨hch, h⟩ | ⟨-, h⟩
        · cases h
          rw [hch] at hscans
          exact Advances.plainToken (by decide) (hscans.trans (Scans.plain (by decide) (plain_byte (by decide))))
            (by omega)
        · cases h
    · cases h
      have hv : v ≠ 0x3f#16 := by
        intro hv
        rw [hv, cesu8_cons, encode_ascii (by decide)] at hcons
        exact hquestion (List.cons.inj hcons).1.symm
      refine ⟨rfl, rfl, fun hl => hl, ?_, fun _ => hshort, fun h => ?_, fun _ h => ?_, fun h => ?_, fun h => ?_⟩
      · exact hparen 1 (if_pos hv)
      · exact absurd h (by decide : TokenType.startCaptureGroup ≠ .eof)
      · exact absurd h (by decide : TokenType.startCaptureGroup ≠ .backreference)
      · exact absurd h (by decide : TokenType.startCaptureGroup ≠ .classEscape)
      · exact absurd h (by decide : TokenType.startCaptureGroup ≠ .char)

theorem parseEscape_advances {b : Byte} {tail : List Byte} (hl : l.inputCurr = 0x5c#8 :: b :: tail)
    (hus : b :: tail = cesu8 us) {m : Lexer} (hm : l.Same m) (h : parseBackslash.parseEscape m b tail = .ok l') :
    Advances l l' := by
  rw [parseBackslash.parseEscape] at h
  have hbyte : ∀ {type : TokenType}, b.toNat < 0x80 → (type ≠ .startCaptureGroup ∧ type ≠ .charClass ∧ type ≠ .eof ∧
      type ≠ .backreference ∧ type ≠ .classEscape ∧ type ≠ .char) → Advances l (m.plainToken type tail) := by
    intro type hb htype
    refine Advances.simple ⟨hm.flags, hm.inputStart, hm.groupsCount⟩ rfl
      ⟨htype.1, htype.2.1, htype.2.2.1, htype.2.2.2.1⟩ (fun h => absurd h htype.2.2.2.2.1)
      (fun h => absurd h htype.2.2.2.2.2) ?_ ?_
    · rw [hl]
      exact Scans.escape hb
    · rw [hl, List.length_cons, List.length_cons]
      exact Nat.lt_succ_of_lt (Nat.lt_succ_self _)
  rcases ite_eq_iff.mp h with ⟨hb, h⟩ | ⟨-, h⟩
  · cases h
    exact hbyte (by rw [hb]; decide) (by decide)
  rcases ite_eq_iff.mp h with ⟨hb, h⟩ | ⟨-, h⟩
  · cases h
    exact hbyte (by rw [hb]; decide) (by decide)
  obtain ⟨k, hescape, h⟩ := bind_eq_ok h
  cases us with
  | nil => cases hus
  | cons u us =>
    have hread := reParseCharEscape_reads (l := { m with inputCurr := b :: tail }) hus hescape
    have hcurr : l.inputCurr = cesu8 (0x5c#16 :: u :: us) := by
      rw [hl, hus]
      exact (cesu8_ascii (show (0x5c#8).toNat < 0x80 by decide) _).symm
    have hsame : l.Same k := hm.trans ⟨hread.same.flags, hread.same.inputStart, hread.same.groupsCount⟩
    have hscans : Scans 0 false false l.inputCurr k.inputCurr := by
      intro vs hvs
      rw [hcurr] at hvs
      obtain ⟨us', hus', hscan⟩ := hread.scans false us rfl
      refine ⟨us', hus', ?_⟩
      rw [← cesu8_inj hvs, scanUnits_escape, hscan]
    have hshort : k.inputCurr.length < l.inputCurr.length := by
      have h1 := length_cesu8_cons u us
      have h2 := length_cesu8_cons 0x5c#16 (u :: us)
      have h3 := hread.length
      rw [hcurr]
      omega
    have hk : Advances l k ∧ k.token.type ≠ .eof := by
      rcases hread.type with htype | ⟨htype, hvalue⟩
      · exact ⟨Advances.simple hsame htype (by decide) (fun h => absurd h (by decide)) (fun _ => hm.flags ▸ hread.value)
          hscans hshort, by rw [htype]; decide⟩
      · exact ⟨Advances.simple hsame htype (by decide) (fun _ => hvalue) (fun h => absurd h (by decide)) hscans hshort,
          by rw [htype]; decide⟩
    exact hk.1.quantifier hk.2 h

/-- A number that does not begin with zero is not zero. -/
theorem parseDecimalLoop_ge (s : List Byte) (value : BitVec 32) : value ≤ (parseDecimalLoop value s).1 := by
  induction s generalizing value with
  | nil => exact BitVec.le_refl value
  | cons c s ih =>
    rw [parseDecimalLoop]
    split
    · dsimp only
      split
      · have hmax : value ≤ 0xffffffff#32 := by bv_omega
        exact BitVec.le_trans hmax (ih _)
      · rename_i hcond
        have hle : value ≤ value * 10#32 + digitValue c := BitVec.not_lt.mp fun h => hcond (Or.inr h)
        exact BitVec.le_trans hle (ih _)
    · exact BitVec.le_refl value

theorem parseBackslash_advances (hl : l.inputCurr = cesu8 (0x5c#16 :: us))
    (h : parseBackslash { l with inputCurr := cesu8 us } (cesu8 us) = .ok l') : Advances l l' := by
  have hcurr : l.inputCurr = 0x5c#8 :: cesu8 us := by
    rw [hl]
    exact cesu8_ascii (show (0x5c#8).toNat < 0x80 by decide) us
  generalize hs : cesu8 us = s at h hcurr
  rw [parseBackslash.eq_def] at h
  cases s with
  | nil => cases h
  | cons b tail =>
    dsimp only at h
    rcases ite_eq_iff.mp h with ⟨hdigit, h⟩ | ⟨-, h⟩
    · rcases ite_eq_iff.mp h with ⟨hvalue, h⟩ | ⟨-, h⟩
      · have hb : 0x30 < b.toNat ∧ b.toNat ≤ 0x39 := hdigit
        have hskips : Skips tail (litParseDecimal (b :: tail)).2 := parseDecimalLoop_skips tail _
        refine Advances.quantifier (@Advances.count l l.counting _ ?_ rfl rfl rfl Lexer.Counted.counting) ?_ h
        · refine ⟨rfl, rfl, fun hm => hm, ?_, fun _ => ?_, fun h => ?_, fun hm _ => ⟨?_, ?_⟩, fun h => ?_, fun h => ?_⟩
          · show Scans 0 false false l.inputCurr _
            rw [hcurr]
            exact (Scans.escape (by omega)).trans (hskips.1 false)
          · show _ < l.inputCurr.length
            rw [hcurr, List.length_cons, List.length_cons]
            exact Nat.lt_succ_of_le (Nat.le_succ_of_le hskips.2)
          · exact absurd h (by decide : TokenType.backreference ≠ .eof)
          · intro hzero
            have hge : digitValue b ≤ (litParseDecimal (b :: tail)).1 := parseDecimalLoop_ge tail _
            rw [show (litParseDecimal (b :: tail)).1 = 0#32 from hzero] at hge
            rw [digitValue, BitVec.le_def, BitVec.toNat_sub, BitVec.toNat_setWidth, BitVec.toNat_ofNat,
              BitVec.toNat_ofNat] at hge
            omega
          · rw [← hm _ rfl]
            exact hvalue
          · exact absurd h (by decide : TokenType.backreference ≠ .classEscape)
          · exact absurd h (by decide : TokenType.backreference ≠ .char)
        · exact (by decide : TokenType.backreference ≠ .eof)
      · refine @Advances.count l l.counting _ ?_ rfl rfl rfl Lexer.Counted.counting
        exact parseEscape_advances hcurr hs.symm ⟨rfl, rfl, rfl⟩ h
    · exact parseEscape_advances hcurr hs.symm ⟨rfl, rfl, rfl⟩ h

/-- `re_parse_next_token`. -/
theorem reParseNextToken_advances (hl : l.inputCurr = cesu8 us) (h : reParseNextToken l = .ok l') : Advances l l' := by
  rw [reParseNextToken.eq_def] at h
  cases us with
  | nil =>
    rw [hl] at h
    cases h
    refine ⟨rfl, rfl, fun hl => hl, ?_, fun h => absurd rfl h, fun _ => rfl, fun _ h => ?_, fun h => ?_, fun h => ?_⟩
    · rw [hl]
      exact Scans.refl
    · exact absurd h (by decide : TokenType.eof ≠ .backreference)
    · exact absurd h (by decide : TokenType.eof ≠ .classEscape)
    · exact absurd h (by decide : TokenType.eof ≠ .char)
  | cons u us =>
    obtain ⟨e, t, he, _, _⟩ := encode_bytes u
    have hcons : l.inputCurr = e :: (t ++ cesu8 us) := by rw [hl, cesu8_cons, he, List.cons_append]
    have hshort : (cesu8 us).length < l.inputCurr.length := by
      rw [hl]
      exact length_cesu8_cons u us
    rw [hcons] at h
    obtain ⟨⟨ch, r⟩, hread, h⟩ := bind_eq_ok h
    obtain ⟨us', hus, rfl⟩ := readInput_cesu8 hread (hcons.symm.trans hl)
    obtain ⟨rfl, rfl⟩ := List.cons.inj hus
    dsimp only at h
    have hunit : ∀ {v : CodeUnit}, u = v → v ≠ 0x5c#16 ∧ v ≠ 0x5b#16 ∧ v ≠ 0x28#16 →
        Scans 0 false false l.inputCurr (cesu8 us) := by
      intro v hv hne
      rw [hl, hv]
      exact Scans.unit (scanUnits_false hne us)
    rcases ite_eq_iff.mp h with ⟨hu, h⟩ | ⟨-, h⟩
    · cases h
      exact Advances.plainToken (by decide) (hunit hu (by decide)) hshort
    rcases ite_eq_iff.mp h with ⟨hu, h⟩ | ⟨-, h⟩
    · cases h
      exact Advances.plainToken (by decide) (hunit hu (by decide)) hshort
    rcases ite_eq_iff.mp h with ⟨hu, h⟩ | ⟨-, h⟩
    · cases h
      exact Advances.plainToken (by decide) (hunit hu (by decide)) hshort
    rcases ite_eq_iff.mp h with ⟨hu, h⟩ | ⟨-, h⟩
    · have hperiod : Advances l (l.plainToken .period (cesu8 us)) :=
        Advances.plainToken (by decide) (hunit hu (by decide)) hshort
      exact hperiod.quantifier (by decide : TokenType.period ≠ .eof) h
    rcases ite_eq_iff.mp h with ⟨hu, h⟩ | ⟨hesc, h⟩
    · rw [hu] at hl
      exact parseBackslash_advances hl h
    rcases ite_eq_iff.mp h with ⟨hu, h⟩ | ⟨hparen, h⟩
    · rw [hu] at hl
      exact parseLeftParen_advances hl h
    rcases ite_eq_iff.mp h with ⟨hu, h⟩ | ⟨-, h⟩
    · cases h
      exact Advances.plainToken (by decide) (hunit hu (by decide)) hshort
    rcases ite_eq_iff.mp h with ⟨hu, h⟩ | ⟨hopen, h⟩
    · rcases ite_eq_iff.mp h with ⟨-, h⟩ | ⟨-, h⟩
      · cases h
      · cases h
        refine ⟨rfl, rfl, fun hl => hl, ?_, fun _ => hshort, fun h => ?_, fun _ h => ?_, fun h => ?_, fun h => ?_⟩
        · show Scans 0 false true l.inputCurr (cesu8 us)
          rw [hl, hu]
          exact Scans.unit (scanUnits_open us)
        · exact absurd h (by decide : TokenType.charClass ≠ .eof)
        · exact absurd h (by decide : TokenType.charClass ≠ .backreference)
        · exact absurd h (by decide : TokenType.charClass ≠ .classEscape)
        · exact absurd h (by decide : TokenType.charClass ≠ .char)
    rcases ite_eq_iff.mp h with ⟨-, h⟩ | ⟨-, h⟩
    · cases h
    rcases ite_eq_iff.mp h with ⟨hu, h⟩ | ⟨-, h⟩
    · rcases ite_eq_iff.mp h with ⟨-, h⟩ | ⟨-, h⟩
      · cases h
      rcases ite_eq_iff.mp h with ⟨-, h⟩ | ⟨-, h⟩
      · cases h
      · exact Advances.charToken (CharValue.unit _ u) (hunit hu (by decide)) hshort h
    rcases ite_eq_iff.mp h with ⟨-, h⟩ | ⟨-, h⟩
    · cases h
    · exact parsePlainChar_advances ⟨hesc, hopen, hparen⟩ hl h

end

end Regexp
end JJS
