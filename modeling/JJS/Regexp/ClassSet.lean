import JJS.Regexp.Valid

/-!
# JJS.Regexp.ClassSet

The set of characters that a character class stands for, and what the matcher makes of the class. Single characters and
most class escapes are tested as they should be. A range is tested by the images of its ends, and white space by the low
half of a code point (`charClass_right_iff`).
-/

namespace JJS
namespace Regexp

open Utf8 Lit Strings Outcome

/-! ## The set of a class -/

/-- White space among the code points. -/
def IsSpace (m : CodePoint) : Prop := m ≤ 0xffff#32 ∧ IsWhiteSpace (m.setWidth 16)

/-- A code point that is no code unit, with white space as its low half. -/
def HasLowSpace (m : CodePoint) : Prop := 0xffff#32 < m ∧ IsWhiteSpace (m.setWidth 16)

section

variable (tables : CaseTables) (flags : Flags)

/-- The word characters. In full unicode mode without case they are those with the image of a word character. -/
def IsWord (m : CodePoint) : Prop :=
  litCharIsWordChar m = true ∨
    flags.unicode = true ∧ flags.ignoreCase = true ∧ litCharIsWordChar (ecmaRegexpCanonicalize tables m flags) = true

/-- The characters of a class escape. -/
def ClassEscape.Holds (m : CodePoint) : ClassEscape → Prop
  | .digit => 0x30#32 ≤ m ∧ m ≤ 0x39#32
  | .notDigit => ¬(0x30#32 ≤ m ∧ m ≤ 0x39#32)
  | .wordChar => IsWord tables flags m
  | .notWordChar => ¬IsWord tables flags m
  | .whitespace => IsSpace m
  | .notWhitespace => ¬IsSpace m

/-- The members of a class. -/
def ClassContent.Member (content : ClassContent) (m : CodePoint) : Prop :=
  CharValue flags.unicode m ∧ (m ∈ content.chars ∨ (∃ e ∈ content.escapes, ClassEscape.Holds tables flags m e) ∨
    ∃ r ∈ content.ranges, r.1 ≤ m ∧ m ≤ r.2)

/-- Some member has the same image. -/
def ClassContent.Denotes (content : ClassContent) (ch : CodePoint) : Prop :=
  ∃ m, content.Member tables flags m ∧ ecmaRegexpCanonicalize tables m flags = ecmaRegexpCanonicalize tables ch flags

/-- The class accepts the character, inverted or not. -/
def ClassContent.Accepts (content : ClassContent) (ch : CodePoint) : Prop :=
  if content.inverted then ¬content.Denotes tables flags ch else content.Denotes tables flags ch

/-- The character that is read, before its case is dropped. -/
def inputChar (subject : Subject) (str : Nat) : CodePoint :=
  if flags.unicode then (ecmaRegexpUnicodeAdvance subject.memory str subject.inputEnd).1
  else (litCesu8ReadNext subject.memory str).1.setWidth 32

/-- `RE_OP_CHAR_CLASS` goes on behind the class when the class accepts the character, and fails otherwise. -/
structure ClassRight (content : ClassContent) (size : Nat) (subject : Subject) (code : List Byte) (bc str : Nat)
    (st : Matcher) : Prop where
  goesOn : content.Accepts tables flags (inputChar flags subject str) →
    charClass tables flags subject code bc str st =
      some (.goOn (bc + size) (ecmaRegexpAdvance tables flags subject str).2 st)
  fails : ¬content.Accepts tables flags (inputChar flags subject str) →
    charClass tables flags subject code bc str st = some (.fail st)

/-! ## What goes wrong -/

/-- A single character or an escape settles that the class has the character. -/
def ClassContent.Settles (content : ClassContent) (ch : CodePoint) : Prop :=
  (∃ c ∈ content.chars, ecmaRegexpCanonicalize tables c flags = ecmaRegexpCanonicalize tables ch flags) ∨
    ∃ e ∈ content.escapes, ClassEscape.Holds tables flags ch e ∧
      ecmaRegexpCheckClassEscape (ecmaRegexpCanonicalize tables ch flags) e = true

/-- The image is between the images of the ends of a range. -/
def ClassContent.BetweenEnds (content : ClassContent) (ch : CodePoint) : Prop :=
  ∃ r ∈ content.ranges, ecmaRegexpCanonicalize tables r.1 flags ≤ ecmaRegexpCanonicalize tables ch flags ∧
    ecmaRegexpCanonicalize tables ch flags ≤ ecmaRegexpCanonicalize tables r.2 flags

/-- A range has a character with the same image. -/
def ClassContent.InRange (content : ClassContent) (ch : CodePoint) : Prop :=
  ∃ r ∈ content.ranges, ∃ m, r.1 ≤ m ∧ m ≤ r.2 ∧
    ecmaRegexpCanonicalize tables m flags = ecmaRegexpCanonicalize tables ch flags

/-- The ends of the ranges and the low half of the character do not mislead the matcher. -/
def ClassContent.NotMisled (content : ClassContent) (ch : CodePoint) : Prop :=
  content.Settles tables flags ch ∨
    (content.BetweenEnds tables flags ch ∨
        ClassEscape.whitespace ∈ content.escapes ∧ HasLowSpace (ecmaRegexpCanonicalize tables ch flags) ↔
      content.InRange tables flags ch ∨
        ClassEscape.notWhitespace ∈ content.escapes ∧ HasLowSpace (ecmaRegexpCanonicalize tables ch flags))

end

/-! ## Images -/

/-- What holds of the tables as to class escapes: code units are converted to code units, no conversion is a digit, and
white space is what is converted to white space. -/
structure CaseTables.Regular (tables : CaseTables) : Prop where
  units : tables.OfUnits
  upper : ∀ ch, 0x7f#32 < ch →
    ecmaRegexpCheckClassEscape (tables.upper ch) .digit = false ∧ (IsSpace (tables.upper ch) ↔ IsSpace ch)
  lower : ∀ ch, 0x7f#32 < ch →
    ecmaRegexpCheckClassEscape (tables.lower ch) .digit = false ∧ (IsSpace (tables.lower ch) ↔ IsSpace ch)

section

variable {tables : CaseTables} {flags : Flags} {m ch : CodePoint}

/-- The images of ASCII characters are ASCII characters of the same kinds. -/
theorem ascii_image : ∀ (k : Fin 128) (ignoreCase unicode : Bool),
    let m : CodePoint := BitVec.ofNat 32 k.val
    let cp := if ignoreCase then ecmaRegexpCanonicalizeChar asciiTables m unicode else m
    cp ≤ 0x7f#32 ∧ ecmaRegexpCheckClassEscape cp .digit = ecmaRegexpCheckClassEscape m .digit ∧
      litCharIsWordChar cp = litCharIsWordChar m ∧
      litCharIsWhiteSpace (cp.setWidth 16) = litCharIsWhiteSpace (m.setWidth 16) := by
  decide +kernel

theorem canonicalize_ascii (h : m ≤ 0x7f#32) :
    ecmaRegexpCanonicalize tables m flags = ecmaRegexpCanonicalize asciiTables m flags := by
  have hup : ∀ t : CaseTables, litCharFoldToUpper t m = false := by
    intro t
    rw [litCharFoldToUpper, decide_eq_false (BitVec.not_lt.mpr h), Bool.false_and, Bool.false_and]
  have hdown : ∀ t : CaseTables, litCharFoldToLower t m = true := by
    intro t
    rw [litCharFoldToLower, decide_eq_true h, Bool.true_or, Bool.true_or]
  have hlower : litCharToLowerCase tables m = litCharToLowerCase asciiTables m := by
    rw [litCharToLowerCase, litCharToLowerCase, if_pos h, if_pos h]
  have hupper : litCharToUpperCase tables m = litCharToUpperCase asciiTables m := by
    rw [litCharToUpperCase, litCharToUpperCase, if_pos h, if_pos h]
  have hchar : ecmaRegexpCanonicalizeChar tables m flags.unicode =
      ecmaRegexpCanonicalizeChar asciiTables m flags.unicode := by
    rw [ecmaRegexpCanonicalizeChar, ecmaRegexpCanonicalizeChar]
    simp only [hup, hdown, hlower, hupper, Bool.false_eq_true, if_false, if_true]
  rw [ecmaRegexpCanonicalize, ecmaRegexpCanonicalize, hchar]

theorem isSpace_ascii (h : m ≤ 0x7f#32) : IsSpace m ↔ litCharIsWhiteSpace (m.setWidth 16) = true := by
  rw [IsSpace, litCharIsWhiteSpace_iff]
  exact and_iff_right (BitVec.le_trans h (by decide))

/-- The kinds of an ASCII character and of its image. -/
theorem canonicalize_ascii_kinds (h : m ≤ 0x7f#32) :
    ecmaRegexpCheckClassEscape (ecmaRegexpCanonicalize tables m flags) .digit = ecmaRegexpCheckClassEscape m .digit ∧
      litCharIsWordChar (ecmaRegexpCanonicalize tables m flags) = litCharIsWordChar m ∧
      (IsSpace (ecmaRegexpCanonicalize tables m flags) ↔ IsSpace m) := by
  have hm : m = BitVec.ofNat 32 m.toNat := by
    apply BitVec.eq_of_toNat_eq
    rw [BitVec.toNat_ofNat, Nat.mod_eq_of_lt m.isLt]
  have hlt : m.toNat < 128 := Nat.lt_succ_of_le h
  obtain ⟨hle, hdigit, hword, hspace⟩ := ascii_image ⟨m.toNat, hlt⟩ flags.ignoreCase flags.unicode
  dsimp only at hle hdigit hword hspace
  rw [← hm] at hle hdigit hword hspace
  rw [canonicalize_ascii h, ecmaRegexpCanonicalize]
  exact ⟨hdigit, hword, by rw [isSpace_ascii hle, isSpace_ascii h, hspace]⟩

theorem not_digit_of_high (h : 0x7f#32 < m) : ecmaRegexpCheckClassEscape m .digit = false := by
  have hlt : ¬m ≤ 0x39#32 := by bv_omega
  rw [ecmaRegexpCheckClassEscape, decide_eq_false hlt, Bool.and_false]

theorem not_word_of_high (h : 0x7f#32 < m) : litCharIsWordChar m = false := by
  have h1 : ¬m ≤ 0x7a#32 := by bv_omega
  have h2 : ¬m ≤ 0x5a#32 := by bv_omega
  have h3 : ¬m ≤ 0x39#32 := by bv_omega
  have h4 : m ≠ 0x5f#32 := by
    rintro rfl
    exact absurd h (by decide)
  rw [litCharIsWordChar, decide_eq_false h1, decide_eq_false h2, decide_eq_false h3, beq_eq_false_iff_ne.mpr h4,
    Bool.and_false, Bool.and_false, Bool.and_false]
  rfl

/-- What is folded to a character is of the same kind. -/
theorem fold_kinds (htables : tables.Regular) (unicode : Bool) (h : 0x7f#32 < m) :
    ecmaRegexpCheckClassEscape (ecmaRegexpCanonicalizeChar tables m unicode) .digit = false ∧
      (IsSpace (ecmaRegexpCanonicalizeChar tables m unicode) ↔ IsSpace m) := by
  have hnot : ¬m ≤ 0x7f#32 := BitVec.not_le.mpr h
  rw [ecmaRegexpCanonicalizeChar]
  cases unicode with
  | true =>
    rw [if_pos rfl]
    dsimp only
    generalize hx : (if litCharFoldToUpper tables m = true then litCharToUpperCase tables m else m) = x
    have hkinds : ecmaRegexpCheckClassEscape x .digit = false ∧ (IsSpace x ↔ IsSpace m) := by
      rw [← hx]
      split
      · rw [litCharToUpperCase, if_neg hnot]
        exact htables.upper m h
      · exact ⟨not_digit_of_high h, Iff.rfl⟩
    split
    · by_cases hx' : x ≤ 0x7f#32
      · have hascii := @canonicalize_ascii_kinds tables { ignoreCase := true, unicode := true } x hx'
        have hlower : ecmaRegexpCanonicalize tables x { ignoreCase := true, unicode := true } =
            litCharToLowerCase tables x := by
          rw [ecmaRegexpCanonicalize, if_pos rfl, ecmaRegexpCanonicalizeChar, if_pos rfl]
          have hup : litCharFoldToUpper tables x = false := by
            rw [litCharFoldToUpper, decide_eq_false (BitVec.not_lt.mpr hx'), Bool.false_and, Bool.false_and]
          have hdown : litCharFoldToLower tables x = true := by
            rw [litCharFoldToLower, decide_eq_true hx', Bool.true_or, Bool.true_or]
          rw [hup, if_neg Bool.false_ne_true]
          dsimp only
          rw [hdown, if_pos rfl]
        rw [hlower] at hascii
        exact ⟨hascii.1.trans hkinds.1, hascii.2.2.trans hkinds.2⟩
      · rw [litCharToLowerCase, if_neg hx']
        obtain ⟨hdigit, hspace⟩ := htables.lower x (BitVec.not_le.mp hx')
        exact ⟨hdigit, hspace.trans hkinds.2⟩
    · exact hkinds
  | false =>
    rw [if_neg Bool.false_ne_true]
    dsimp only
    split
    · rw [litCharToUpperCase, if_neg hnot]
      exact htables.upper m h
    · exact ⟨not_digit_of_high h, Iff.rfl⟩

theorem canonicalize_kinds (htables : tables.Regular) :
    ecmaRegexpCheckClassEscape (ecmaRegexpCanonicalize tables m flags) .digit = ecmaRegexpCheckClassEscape m .digit ∧
      (IsSpace (ecmaRegexpCanonicalize tables m flags) ↔ IsSpace m) := by
  by_cases h : m ≤ 0x7f#32
  · have hascii := @canonicalize_ascii_kinds tables flags m h
    exact ⟨hascii.1, hascii.2.2⟩
  · have hhigh := BitVec.not_le.mp h
    rw [ecmaRegexpCanonicalize]
    split
    · obtain ⟨hdigit, hspace⟩ := fold_kinds htables flags.unicode hhigh
      exact ⟨hdigit.trans (not_digit_of_high hhigh).symm, hspace⟩
    · exact ⟨rfl, Iff.rfl⟩

/-- The word characters are those with the image of a word character. -/
theorem canonicalize_word : litCharIsWordChar (ecmaRegexpCanonicalize tables m flags) = true ↔ IsWord tables flags m := by
  rw [IsWord]
  by_cases h : m ≤ 0x7f#32
  · have hascii := @canonicalize_ascii_kinds tables flags m h
    rw [hascii.2.1]
    exact ⟨Or.inl, fun hw => hw.elim id fun hw => hw.2.2⟩
  · have hhigh := BitVec.not_le.mp h
    rw [not_word_of_high hhigh]
    constructor
    · intro hword
      right
      cases hcase : flags.ignoreCase with
      | false =>
        rw [ecmaRegexpCanonicalize, hcase, if_neg Bool.false_ne_true, not_word_of_high hhigh] at hword
        cases hword
      | true =>
        cases hunicode : flags.unicode with
        | true => exact ⟨rfl, rfl, hword⟩
        | false =>
          -- without full unicode mode nothing is converted to an ASCII character
          have himage : 0x7f#32 < ecmaRegexpCanonicalize tables m flags := by
            rw [ecmaRegexpCanonicalize, hcase, if_pos rfl, ecmaRegexpCanonicalizeChar, hunicode,
              if_neg Bool.false_ne_true]
            dsimp only
            split
            · rename_i hcond
              exact (hcond.resolve_left h).1
            · exact hhigh
          rw [not_word_of_high himage] at hword
          cases hword
    · intro hword
      rcases hword with hword | hword
      · cases hword
      · exact hword.2.2

/-- The image of white space is white space. A low half is taken for it as well. -/
theorem check_whitespace (cp : CodePoint) :
    litCharIsWhiteSpace (cp.setWidth 16) = true ↔ IsSpace cp ∨ HasLowSpace cp := by
  rw [litCharIsWhiteSpace_iff, IsSpace, HasLowSpace, ← or_and_right]
  exact (and_iff_right ((em (cp ≤ 0xffff#32)).imp id BitVec.not_le.mp)).symm

theorem not_space_of_low {cp : CodePoint} (h : HasLowSpace cp) : ¬IsSpace cp := fun hspace =>
  BitVec.not_le.mpr h.1 hspace.1

/-- Whether a character belongs to an escape can be seen from its image. -/
theorem holds_image (htables : tables.Regular) {e : ClassEscape}
    (himage : ecmaRegexpCanonicalize tables m flags = ecmaRegexpCanonicalize tables ch flags)
    (h : e.Holds tables flags m) : e.Holds tables flags ch := by
  have hdigit : (0x30#32 ≤ m ∧ m ≤ 0x39#32) ↔ (0x30#32 ≤ ch ∧ ch ≤ 0x39#32) := by
    have hm := (@canonicalize_kinds tables flags m htables).1
    have hch := (@canonicalize_kinds tables flags ch htables).1
    rw [himage, hch] at hm
    simpa [ecmaRegexpCheckClassEscape] using Bool.eq_iff_iff.mp hm.symm
  have hword : IsWord tables flags m ↔ IsWord tables flags ch := by
    rw [← canonicalize_word, ← canonicalize_word, himage]
  have hspace : IsSpace m ↔ IsSpace ch := by
    rw [← (@canonicalize_kinds tables flags m htables).2, ← (@canonicalize_kinds tables flags ch htables).2, himage]
  cases e with
  | digit => exact hdigit.mp h
  | notDigit => exact fun hc => h (hdigit.mpr hc)
  | wordChar => exact hword.mp h
  | notWordChar => exact fun hc => h (hword.mpr hc)
  | whitespace => exact hspace.mp h
  | notWhitespace => exact fun hc => h (hspace.mpr hc)

/-- An escape is tested on the image as it should be, unless its low half is white space. -/
theorem check_image (htables : tables.Regular) (e : ClassEscape) :
    (ecmaRegexpCheckClassEscape (ecmaRegexpCanonicalize tables ch flags) e = true → e.Holds tables flags ch ∨
        e = .whitespace ∧ HasLowSpace (ecmaRegexpCanonicalize tables ch flags)) ∧
      (e.Holds tables flags ch → ecmaRegexpCheckClassEscape (ecmaRegexpCanonicalize tables ch flags) e = true ∨
        e = .notWhitespace ∧ HasLowSpace (ecmaRegexpCanonicalize tables ch flags)) := by
  obtain ⟨hdigit, hspace⟩ := @canonicalize_kinds tables flags ch htables
  have hword := @canonicalize_word tables flags ch
  have hwhite := check_whitespace (ecmaRegexpCanonicalize tables ch flags)
  have hisDigit : ecmaRegexpCheckClassEscape (ecmaRegexpCanonicalize tables ch flags) .digit = true ↔
      0x30#32 ≤ ch ∧ ch ≤ 0x39#32 := by
    rw [hdigit]
    simp [ecmaRegexpCheckClassEscape]
  have hnotDigit : ecmaRegexpCheckClassEscape (ecmaRegexpCanonicalize tables ch flags) .notDigit = true ↔
      ¬(0x30#32 ≤ ch ∧ ch ≤ 0x39#32) := by
    rw [← hisDigit]
    simp only [ecmaRegexpCheckClassEscape, Bool.or_eq_true, Bool.and_eq_true, decide_eq_true_eq]
    bv_omega
  cases e with
  | digit => exact ⟨fun h => Or.inl (hisDigit.mp h), fun h => Or.inl (hisDigit.mpr h)⟩
  | notDigit => exact ⟨fun h => Or.inl (hnotDigit.mp h), fun h => Or.inl (hnotDigit.mpr h)⟩
  | wordChar => exact ⟨fun h => Or.inl (hword.mp h), fun h => Or.inl (hword.mpr h)⟩
  | notWordChar =>
    rw [ecmaRegexpCheckClassEscape, Bool.not_eq_true', ← Bool.not_eq_true, hword]
    exact ⟨Or.inl, Or.inl⟩
  | whitespace =>
    rw [ecmaRegexpCheckClassEscape, hwhite, ← hspace.symm]
    exact ⟨fun h => h.imp id fun hlow => ⟨rfl, hlow⟩, fun h => Or.inl (Or.inl h)⟩
  | notWhitespace =>
    rw [ecmaRegexpCheckClassEscape, Bool.not_eq_true', ← Bool.not_eq_true, hwhite]
    constructor
    · intro h
      exact Or.inl fun hs => h (Or.inl (hspace.mpr hs))
    · intro h
      by_cases hlow : HasLowSpace (ecmaRegexpCanonicalize tables ch flags)
      · exact Or.inr ⟨rfl, hlow⟩
      · exact Or.inl fun hs => hs.elim (fun hs => h (hspace.mp hs)) hlow

variable {content : ClassContent} {cls : CharClass}

/-- What the stored class matches: its single characters, its escapes, and what is between the ends of its ranges. -/
theorem matches_iff (htables : tables.OfUnits) (hvalid : content.Valid flags.unicode)
    (h : content.stored tables flags = some cls) (cp : CodePoint) :
    cls.matches flags.unicode cp = true ↔
      (∃ e ∈ content.escapes, ecmaRegexpCheckClassEscape cp e = true) ∨
        (∃ c ∈ content.chars, ecmaRegexpCanonicalize tables c flags = cp) ∨
        ∃ r ∈ content.ranges, ecmaRegexpCanonicalize tables r.1 flags ≤ cp ∧ cp ≤ ecmaRegexpCanonicalize tables r.2 flags := by
  obtain ⟨-, hescapes, hchars, hranges⟩ := stored_eq h
  have hstored : ∀ c, CharValue flags.unicode c → storedChar flags.unicode (ecmaRegexpCanonicalize tables c flags) =
      ecmaRegexpCanonicalize tables c flags := fun c hc => canonicalize_stored htables hc
  rw [CharClass.matches, hescapes, hchars, hranges, Bool.or_eq_true, Bool.or_eq_true, or_assoc]
  refine or_congr List.any_eq_true (or_congr ?_ ?_)
  · rw [List.any_map, List.any_eq_true]
    refine exists_congr fun c => and_congr_right fun hc => ?_
    rw [Function.comp, hstored c (hvalid.chars c hc), beq_iff_eq]
    exact eq_comm
  · rw [List.any_map, List.any_eq_true]
    refine exists_congr fun r => and_congr_right fun hr => ?_
    obtain ⟨hstart, hstop, -⟩ := hvalid.ranges r hr
    rw [Function.comp, hstored r.1 hstart, hstored r.2 hstop, Bool.and_eq_true, decide_eq_true_eq, decide_eq_true_eq]

/-- What settles that the class has the character is found by the matcher. -/
theorem settles_spec (hch : CharValue flags.unicode ch) (hvalid : content.Valid flags.unicode)
    (htables : tables.Regular) (h : content.stored tables flags = some cls) (hsettles : content.Settles tables flags ch) :
    cls.matches flags.unicode (ecmaRegexpCanonicalize tables ch flags) = true ∧ content.Denotes tables flags ch := by
  rw [matches_iff htables.units hvalid h]
  rcases hsettles with ⟨c, hc, heq⟩ | ⟨e, he, hholds, hcheck⟩
  · exact ⟨Or.inr (Or.inl ⟨c, hc, heq⟩), ⟨c, ⟨hvalid.chars c hc, Or.inl hc⟩, heq⟩⟩
  · exact ⟨Or.inl ⟨e, he, hcheck⟩, ⟨ch, ⟨hch, Or.inr (Or.inl ⟨e, he, hholds⟩)⟩, rfl⟩⟩

/-- Nothing else is found but what is between the ends of a range, and what has white space as its low half. -/
theorem matches_rest (htables : tables.Regular) (hvalid : content.Valid flags.unicode)
    (h : content.stored tables flags = some cls) (hnot : ¬content.Settles tables flags ch) :
    cls.matches flags.unicode (ecmaRegexpCanonicalize tables ch flags) = true ↔
      content.BetweenEnds tables flags ch ∨
        ClassEscape.whitespace ∈ content.escapes ∧ HasLowSpace (ecmaRegexpCanonicalize tables ch flags) := by
  rw [matches_iff htables.units hvalid h]
  constructor
  · intro hmatch
    rcases hmatch with ⟨e, he, hcheck⟩ | hchars | hranges
    · rcases (check_image htables e).1 hcheck with hholds | ⟨rfl, hlow⟩
      · exact absurd (Or.inr ⟨e, he, hholds, hcheck⟩) hnot
      · exact Or.inr ⟨he, hlow⟩
    · exact absurd (Or.inl hchars) hnot
    · exact Or.inl hranges
  · intro hmatch
    rcases hmatch with hranges | ⟨he, hlow⟩
    · exact Or.inr (Or.inr hranges)
    · exact Or.inl ⟨_, he, (check_whitespace _).mpr (Or.inr hlow)⟩

theorem denotes_rest (htables : tables.Regular) (hvalid : content.Valid flags.unicode)
    (hch : CharValue flags.unicode ch) (hnot : ¬content.Settles tables flags ch) :
    content.Denotes tables flags ch ↔
      content.InRange tables flags ch ∨
        ClassEscape.notWhitespace ∈ content.escapes ∧ HasLowSpace (ecmaRegexpCanonicalize tables ch flags) := by
  constructor
  · intro hdenotes
    obtain ⟨m, ⟨-, hmember⟩, himage⟩ := hdenotes
    rcases hmember with hm | ⟨e, he, hholds⟩ | ⟨r, hr, hstart, hstop⟩
    · exact absurd (Or.inl ⟨m, hm, himage⟩) hnot
    · have hholds' := holds_image htables himage hholds
      rcases (check_image htables e).2 hholds' with hcheck | ⟨rfl, hlow⟩
      · exact absurd (Or.inr ⟨e, he, hholds', hcheck⟩) hnot
      · exact Or.inr ⟨he, hlow⟩
    · exact Or.inl ⟨r, hr, m, hstart, hstop, himage⟩
  · intro hdenotes
    rcases hdenotes with ⟨r, hr, m, hstart, hstop, himage⟩ | ⟨he, hlow⟩
    · have hm : CharValue flags.unicode m := Nat.lt_of_le_of_lt hstop (hvalid.ranges r hr).2.1
      exact ⟨m, ⟨hm, Or.inr (Or.inr ⟨r, hr, hstart, hstop⟩)⟩, himage⟩
    · have hspace : ¬IsSpace ch := fun hs => not_space_of_low hlow ((canonicalize_kinds htables).2.mpr hs)
      exact ⟨ch, ⟨hch, Or.inr (Or.inl ⟨_, he, hspace⟩)⟩, rfl⟩

/-- The matcher agrees with the set of the class just when it is not misled. -/
theorem matches_iff_denotes (htables : tables.Regular) (hvalid : content.Valid flags.unicode)
    (hch : CharValue flags.unicode ch) (h : content.stored tables flags = some cls) :
    (cls.matches flags.unicode (ecmaRegexpCanonicalize tables ch flags) = true ↔ content.Denotes tables flags ch) ↔
      content.NotMisled tables flags ch := by
  rw [ClassContent.NotMisled]
  by_cases hsettles : content.Settles tables flags ch
  · obtain ⟨hmatches, hdenotes⟩ := settles_spec hch hvalid htables h hsettles
    exact iff_of_true (iff_of_true hmatches hdenotes) (Or.inl hsettles)
  · rw [matches_rest htables hvalid h hsettles, denotes_rest htables hvalid hch hsettles]
    exact (or_iff_right hsettles).symm

/-! ## The matcher -/

variable {subject : Subject} {str : Nat}

theorem advance_image : (ecmaRegexpAdvance tables flags subject str).1 =
    ecmaRegexpCanonicalize tables (inputChar flags subject str) flags := by
  rw [ecmaRegexpAdvance, inputChar]
  cases flags.unicode <;> rfl

theorem inputChar_value : CharValue flags.unicode (inputChar flags subject str) := by
  rw [inputChar]
  cases hunicode : flags.unicode with
  | false => exact CharValue.unit false _
  | true =>
    rw [if_pos rfl, ecmaRegexpUnicodeAdvance]
    dsimp only
    split
    · rename_i hhigh
      split
      · rename_i hlow
        exact CharValue.pair hhigh.1 hlow
      · exact CharValue.unit true _
    · exact CharValue.unit true _

/-- The instruction for a stored class. -/
theorem charClass_right_iff (htables : tables.Regular) (hvalid : content.Valid flags.unicode)
    (h : content.stored tables flags = some cls) {code : List Byte} {bc : Nat} (hat : At code bc (cls.bytes flags.unicode))
    (hstr : str < subject.inputEnd) (st : Matcher) :
    ClassRight tables flags content (cls.bytes flags.unicode).length subject code bc str st ↔
      content.NotMisled tables flags (inputChar flags subject str) := by
  have hrun := @charClass_at tables flags subject code bc cls hat str st
  rw [if_neg (Nat.not_le.mpr hstr), advance_image, (stored_eq h).1] at hrun
  rw [← matches_iff_denotes htables hvalid inputChar_value h]
  -- the instruction goes on just when the answer is not the inversion
  have haccepts : (cls.matches flags.unicode (ecmaRegexpCanonicalize tables (inputChar flags subject str) flags) = true ↔
      content.Denotes tables flags (inputChar flags subject str)) ↔
      (cls.matches flags.unicode (ecmaRegexpCanonicalize tables (inputChar flags subject str) flags) ≠ content.inverted ↔
        content.Accepts tables flags (inputChar flags subject str)) := by
    rw [ClassContent.Accepts]
    cases content.inverted with
    | true => rw [if_pos rfl, ne_eq, not_iff_not]
    | false => rw [if_neg Bool.false_ne_true, ne_eq, Bool.not_eq_false]
  rw [haccepts]
  by_cases hanswer : cls.matches flags.unicode (ecmaRegexpCanonicalize tables (inputChar flags subject str) flags) =
      content.inverted
  · rw [if_pos hanswer] at hrun
    constructor
    · intro hright
      refine iff_of_false (not_not_intro hanswer) ?_
      intro haccept
      have hgoesOn := hright.goesOn haccept
      rw [hrun] at hgoesOn
      cases hgoesOn
    · intro hiff
      exact ⟨fun haccept => absurd hanswer (hiff.mpr haccept), fun _ => hrun⟩
  · rw [if_neg hanswer] at hrun
    constructor
    · intro hright
      refine iff_of_true hanswer ?_
      by_contra haccept
      have hfails := hright.fails haccept
      rw [hrun] at hfails
      cases hfails
    · intro hiff
      exact ⟨fun _ => hrun, fun haccept => absurd (hiff.mp hanswer) haccept⟩

/-- Every class that is compiled is right just on the characters that do not mislead the matcher. -/
theorem reParseCharClass_right_iff {heap : Heap} {p : TreeParser} {front : List Byte} {us : List CodeUnit} {c : Compiler}
    (htables : tables.Regular) (hp : p.inputCurr = cesu8 us)
    (h : reParseCharClass tables (p.compiler heap front) = .ok c) :
    ∃ content l bytes, treeClass p.toLexer = .ok (content, l) ∧ c.bytecode = front ++ Opcode.charClass.toByte :: bytes ∧
      ∀ code bc, At code bc bytes → ∀ (subject : Subject) str st, str < subject.inputEnd →
        (ClassRight tables p.flags content bytes.length subject code bc str st ↔
          content.NotMisled tables p.flags (inputChar p.flags subject str)) := by
  have hfollows := @reParseCharClass_follows p heap front tables p.flags us rfl hp
  rw [h] at hfollows
  obtain ⟨t, hbind, cls, hterm, hcode⟩ := hfollows
  obtain ⟨⟨content, l⟩, htree, hstore⟩ := bind_eq_ok hbind
  obtain ⟨hpassed, hvalid⟩ := treeClass_reads hp htree
  refine ⟨content, l, cls.bytes p.flags.unicode, htree, ?_, ?_⟩
  · rw [hcode]
    rfl
  · intro code bc hat subject str st hstr
    rw [storeClass] at hstore
    dsimp only at hstore
    rw [hpassed.flags] at hstore
    cases hstored : content.stored tables p.flags with
    | none =>
      rw [hstored] at hstore
      cases hstore
    | some cls' =>
      rw [hstored] at hstore
      obtain ⟨l₂, -, hok⟩ := bind_eq_ok hstore
      cases hok
      cases hterm
      exact charClass_right_iff htables hvalid hstored hat hstr st

end

theorem asciiTables_regular : asciiTables.Regular := by
  refine ⟨asciiTables_ofUnits, ?_, ?_⟩
  · intro ch hch
    exact ⟨not_digit_of_high hch, Iff.rfl⟩
  · intro ch hch
    exact ⟨not_digit_of_high hch, Iff.rfl⟩

/-- The parser in front of the class `[Z-a]`, without case. -/
def endsParser : TreeParser where
  inputStart := cesu8 [0x5b#16, 0x5a#16, 0x2d#16, 0x61#16, 0x5d#16]
  inputCurr := cesu8 [0x5a#16, 0x2d#16, 0x61#16, 0x5d#16]
  groupsCount := none
  flags := { ignoreCase := true }
  token := { type := .charClass, value := 0#32, qmin := 1#32, qmax := 1#32, greedy := true }
  capturesCount := 1
  nonCapturesCount := 0

/-- The class behind its opcode: one range, from `Z` to the image of `a`. -/
def endsBytes : List Byte := [0x40#8, 1#8, 0#8, 0x5a#8, 0#8, 0x41#8]

/-- The compiler behind the class. -/
def endsCompiled : Compiler :=
  { endsParser.compiler wideHeap (Opcode.charClass.toByte :: endsBytes) with inputCurr := [] }

theorem reParseCharClass_right_ends :
    ∃ content l bytes, treeClass endsParser.toLexer = .ok (content, l) ∧
      endsCompiled.bytecode = [] ++ Opcode.charClass.toByte :: bytes ∧
      ∀ code bc, At code bc bytes → ∀ (subject : Subject) str st, str < subject.inputEnd →
        (ClassRight asciiTables endsParser.flags content bytes.length subject code bc str st ↔
          content.NotMisled asciiTables endsParser.flags (inputChar endsParser.flags subject str)) :=
  @reParseCharClass_right_iff asciiTables wideHeap endsParser [] [0x5a#16, 0x2d#16, 0x61#16, 0x5d#16] endsCompiled
    asciiTables_regular rfl rfl

/-- `/[Z-a]/i` does not match `z`, though its first character has the same image. -/
theorem endsClass_misled :
    ∃ content l, reParseCharClass asciiTables (endsParser.compiler wideHeap []) = .ok endsCompiled ∧
      treeClass endsParser.toLexer = .ok (content, l) ∧
      ¬ClassRight asciiTables endsParser.flags content endsBytes.length (inputAt8 [0x7a#8]) endsBytes 0 8 ⟨[], []⟩ := by
  refine ⟨⟨false, [], [], [(0x5a#32, 0x61#32)]⟩, { endsParser.toLexer with inputCurr := [] }, rfl, rfl, ?_⟩
  intro hright
  have hdenotes : ClassContent.Denotes asciiTables endsParser.flags ⟨false, [], [], [(0x5a#32, 0x61#32)]⟩ 0x7a#32 := by
    refine ⟨0x5a#32, ⟨?_, Or.inr (Or.inr ⟨_, List.mem_singleton_self _, ?_⟩)⟩, ?_⟩
    · exact (by decide : (0x5a#32 : CodePoint).toNat < 0x10000)
    · decide
    · decide
  have hgoesOn := hright.goesOn hdenotes
  have hfail : charClass asciiTables endsParser.flags (inputAt8 [0x7a#8]) endsBytes 0 8 ⟨[], []⟩ = some (.fail ⟨[], []⟩) :=
    rfl
  rw [hfail] at hgoesOn
  cases hgoesOn

end Regexp
end JJS
