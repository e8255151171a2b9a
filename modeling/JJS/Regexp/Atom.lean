import JJS.Regexp.Run

/-!
# JJS.Regexp.Atom

What stands for one character in the byte code, and what the matcher makes of it. A character class is a byte of flags,
the numbers of its characters and ranges, and then its class escapes, characters and ranges. Whatever decides the match,
the matcher goes on behind the class (`charClass_at`).
-/

namespace JJS
namespace Regexp

open Utf8 Lit Strings

/-! ## Layouts -/

/-- A character class as it is stored; the numbers fit in their fields. -/
structure CharClass where
  inverted : Bool
  escapes : List ClassEscape
  chars : List CodePoint
  ranges : List (CodePoint × CodePoint)
  escapes_lt : escapes.length < 8
  chars_lt : chars.length < 2 ^ 32
  ranges_lt : ranges.length < 2 ^ 32

namespace CharClass

variable (cls : CharClass)

/-- `out_class_flags`. -/
def classFlags : Byte :=
  (if cls.inverted then 0x80#8 else 0#8) ||| (if cls.ranges = [] then 0#8 else 0x40#8) |||
    (if cls.chars = [] then 0#8 else 0x20#8) ||| BitVec.ofNat 8 cls.escapes.length

/-- The numbers of characters and ranges, when there are any. -/
def counts : List Byte :=
  (if cls.chars = [] then [] else encodeValue (BitVec.ofNat 32 cls.chars.length)) ++
    (if cls.ranges = [] then [] else encodeValue (BitVec.ofNat 32 cls.ranges.length))

/-- The class behind its opcode. -/
def bytes (unicode : Bool) : List Byte :=
  cls.classFlags :: (cls.counts ++ (cls.escapes.map ClassEscape.toByte ++
    (cls.chars.flatMap (encodeChar unicode) ++
      cls.ranges.flatMap fun r => encodeChar unicode r.1 ++ encodeChar unicode r.2)))

end CharClass

/-- A character as it is read back from the byte code. -/
def storedChar (unicode : Bool) (cp : CodePoint) : CodePoint := if unicode then cp else (cp.setWidth 16).setWidth 32

/-- The class contains the character, inverted or not. -/
def CharClass.matches (cls : CharClass) (unicode : Bool) (cp : CodePoint) : Bool :=
  cls.escapes.any (ecmaRegexpCheckClassEscape cp) || cls.chars.any (fun c => cp == storedChar unicode c) ||
    cls.ranges.any fun r => decide (storedChar unicode r.1 ≤ cp) && decide (cp ≤ storedChar unicode r.2)

/-- An atom that stands for one character. -/
inductive Atom where
  | byte (b : Byte)
  | char (cp : CodePoint)
  | classEscape (escape : ClassEscape)
  | charClass (cls : CharClass)
  | period

/-- The byte code of an atom. -/
def Atom.bytes (unicode : Bool) : Atom → List Byte
  | .byte b => [Opcode.byte.toByte, b]
  | .char cp => Opcode.char.toByte :: encodeChar unicode cp
  | .classEscape escape => [Opcode.classEscape.toByte, escape.toByte]
  | .charClass cls => Opcode.charClass.toByte :: cls.bytes unicode
  | .period => [(if unicode then Opcode.unicodePeriod else Opcode.period).toByte]

/-- `RE_OP_BYTE` is for ASCII characters only. -/
def Atom.Ascii : Atom → Prop
  | .byte b => b.toNat < 0x80
  | _ => True

/-! ## Reading a class -/

section

variable {tables : CaseTables} {flags : Flags} {subject : Subject} {code : List Byte} {bc : Nat}

theorem getChar_stored {unicode : Bool} {cp : CodePoint} (h : At code bc (encodeChar unicode cp)) :
    getChar code bc unicode = some (storedChar unicode cp, bc + (encodeChar unicode cp).length) := by
  cases unicode with
  | true => exact decodeU32_at h
  | false =>
    have hread : decodeU16 code bc = some (cp.setWidth 16, bc + 2) := decodeU16_at h
    rw [getChar, if_neg Bool.false_ne_true, hread]
    rfl

theorem length_encodeChar_charSize (flags : Flags) (cp : CodePoint) :
    (encodeChar flags.unicode cp).length = charSize flags := length_encodeChar flags.unicode cp

theorem ofByte_toByte_escape (escape : ClassEscape) : ClassEscape.ofByte escape.toByte = some escape := by
  cases escape <;> decide

/-- The escapes that are left are those between the position and the end of the escapes. -/
theorem matchEscapes_at {escapes : List ClassEscape} (cp : CodePoint) (h : At code bc (escapes.map ClassEscape.toByte)) :
    ∃ left bc', matchEscapes code cp escapes.length bc = some (escapes.any (ecmaRegexpCheckClassEscape cp), left, bc') ∧
      bc' + left = bc + escapes.length ∧ (escapes.any (ecmaRegexpCheckClassEscape cp) = false → left = 0) := by
  induction escapes generalizing bc with
  | nil => exact ⟨0, bc, rfl, rfl, fun _ => rfl⟩
  | cons escape escapes ih =>
    rw [List.map_cons] at h
    rw [List.length_cons, matchEscapes, getByte_at h]
    simp only [Option.bind_eq_bind, Option.bind_some]
    rw [ofByte_toByte_escape, Option.bind_some, List.any_cons]
    by_cases hcheck : ecmaRegexpCheckClassEscape cp escape = true
    · rw [if_pos hcheck, hcheck, Bool.true_or]
      refine ⟨escapes.length, bc + 1, rfl, by omega, ?_⟩
      intro hfalse
      cases hfalse
    · obtain ⟨left, bc', hmatch, hend, hnone⟩ := ih (at_cons_iff.mp h).2
      rw [if_neg hcheck, Bool.eq_false_of_not_eq_true hcheck, Bool.false_or]
      exact ⟨left, bc', hmatch, by omega, hnone⟩

theorem matchChars_at {chars : List CodePoint} (cp : CodePoint)
    (h : At code bc (chars.flatMap (encodeChar flags.unicode))) :
    ∃ left bc', matchChars flags code cp chars.length bc =
        some (chars.any (fun c => cp == storedChar flags.unicode c), left, bc') ∧
      bc' + left * charSize flags = bc + chars.length * charSize flags ∧
      (chars.any (fun c => cp == storedChar flags.unicode c) = false → left = 0) := by
  induction chars generalizing bc with
  | nil => exact ⟨0, bc, rfl, rfl, fun _ => rfl⟩
  | cons c chars ih =>
    rw [List.flatMap_cons, at_append_iff, length_encodeChar_charSize] at h
    rw [List.length_cons, matchChars, getChar_stored h.1]
    simp only [Option.bind_eq_bind, Option.bind_some]
    rw [List.any_cons, length_encodeChar_charSize, Nat.add_mul, Nat.one_mul]
    by_cases hcp : cp = storedChar flags.unicode c
    · rw [if_pos hcp, beq_iff_eq.mpr hcp, Bool.true_or]
      refine ⟨chars.length, bc + charSize flags, rfl, by omega, ?_⟩
      intro hfalse
      cases hfalse
    · obtain ⟨left, bc', hmatch, hend, hnone⟩ := ih h.2
      rw [if_neg hcp, beq_eq_false_iff_ne.mpr hcp, Bool.false_or]
      exact ⟨left, bc', hmatch, by omega, hnone⟩

theorem matchRanges_at {ranges : List (CodePoint × CodePoint)} (cp : CodePoint)
    (h : At code bc (ranges.flatMap fun r => encodeChar flags.unicode r.1 ++ encodeChar flags.unicode r.2)) :
    ∃ left bc', matchRanges flags code cp ranges.length bc =
        some (ranges.any (fun r => decide (storedChar flags.unicode r.1 ≤ cp) &&
          decide (cp ≤ storedChar flags.unicode r.2)), left, bc') ∧
      bc' + left * charSize flags * 2 = bc + ranges.length * charSize flags * 2 ∧
      (ranges.any (fun r => decide (storedChar flags.unicode r.1 ≤ cp) &&
          decide (cp ≤ storedChar flags.unicode r.2)) = false → left = 0) := by
  induction ranges generalizing bc with
  | nil => exact ⟨0, bc, rfl, rfl, fun _ => rfl⟩
  | cons r ranges ih =>
    rw [List.flatMap_cons, at_append_iff, at_append_iff, List.length_append, length_encodeChar_charSize,
      length_encodeChar_charSize] at h
    rw [List.length_cons, matchRanges, getChar_stored h.1.1]
    simp only [Option.bind_eq_bind, Option.bind_some]
    rw [List.any_cons, length_encodeChar_charSize]
    have hsize : (ranges.length + 1) * charSize flags * 2 = ranges.length * charSize flags * 2 + charSize flags * 2 := by
      rw [Nat.add_mul, Nat.add_mul, Nat.one_mul]
    have hbehind : bc + charSize flags + charSize flags = bc + (charSize flags + charSize flags) := Nat.add_assoc _ _ _
    by_cases hstart : cp < storedChar flags.unicode r.1
    · have hle : ¬storedChar flags.unicode r.1 ≤ cp := BitVec.not_le.mpr hstart
      obtain ⟨left, bc', hmatch, hend, hnone⟩ := ih h.2
      rw [if_pos hstart, decide_eq_false hle, Bool.false_and, Bool.false_or, hbehind]
      exact ⟨left, bc', hmatch, by omega, hnone⟩
    · have hle : storedChar flags.unicode r.1 ≤ cp := BitVec.not_lt.mp hstart
      have hread := getChar_stored h.1.2
      rw [if_neg hstart, decide_eq_true hle, Bool.true_and, hread]
      simp only [Option.bind_some]
      rw [length_encodeChar_charSize, hbehind]
      by_cases hstop : cp ≤ storedChar flags.unicode r.2
      · rw [if_pos hstop, decide_eq_true hstop, Bool.true_or]
        refine ⟨ranges.length, _, rfl, by omega, ?_⟩
        intro hfalse
        cases hfalse
      · obtain ⟨left, bc', hmatch, hend, hnone⟩ := ih h.2
        rw [if_neg hstop, decide_eq_false hstop, Bool.false_or]
        exact ⟨left, bc', hmatch, by omega, hnone⟩

/-- The bits of the flags are what they were made of. -/
theorem classFlags_bits : ∀ (inverted ranges chars : Bool) (count : Fin 8),
    let flags : Byte := (if inverted then 0x80#8 else 0#8) ||| (if ranges then 0#8 else 0x40#8) |||
      (if chars then 0#8 else 0x20#8) ||| BitVec.ofNat 8 count.val
    hasChars flags = !chars ∧ hasRanges flags = !ranges ∧ isInverted flags = inverted ∧
      (flags &&& 0x07#8).toNat = count.val := by
  decide

theorem CharClass.bits (cls : CharClass) :
    hasChars cls.classFlags = !decide (cls.chars = []) ∧ hasRanges cls.classFlags = !decide (cls.ranges = []) ∧
      isInverted cls.classFlags = cls.inverted ∧ (cls.classFlags &&& 0x07#8).toNat = cls.escapes.length := by
  have hbits := classFlags_bits cls.inverted (decide (cls.ranges = [])) (decide (cls.chars = []))
    ⟨cls.escapes.length, cls.escapes_lt⟩
  simp only [decide_eq_true_eq] at hbits
  exact hbits

/-- A number is read when it is there, and is zero otherwise. -/
theorem count_at {α : Type} [DecidableEq α] {items : List α} (hlt : items.length < 2 ^ 32)
    (h : At code bc (if items = [] then [] else encodeValue (BitVec.ofNat 32 items.length))) :
    ∃ count, classCount code (!decide (items = [])) bc =
        some (count, bc + (if items = [] then ([] : List Byte)
          else encodeValue (BitVec.ofNat 32 items.length)).length) ∧
      count.toNat = items.length := by
  rw [classCount]
  by_cases hnil : items = []
  · rw [if_pos hnil, decide_eq_true hnil]
    exact ⟨0#32, rfl, by rw [hnil]; rfl⟩
  · rw [if_neg hnil] at h
    rw [if_neg hnil, decide_eq_false hnil]
    refine ⟨BitVec.ofNat 32 items.length, getValue_at h, ?_⟩
    rw [BitVec.toNat_ofNat, Nat.mod_eq_of_lt hlt]

theorem length_flatMap_chars (flags : Flags) (chars : List CodePoint) :
    (chars.flatMap (encodeChar flags.unicode)).length = chars.length * charSize flags := by
  induction chars with
  | nil => exact (Nat.zero_mul _).symm
  | cons c chars ih =>
    rw [List.flatMap_cons, List.length_append, ih, length_encodeChar_charSize, List.length_cons, Nat.add_mul]
    omega

theorem length_flatMap_ranges (flags : Flags) (ranges : List (CodePoint × CodePoint)) :
    (ranges.flatMap fun r => encodeChar flags.unicode r.1 ++ encodeChar flags.unicode r.2).length =
      ranges.length * charSize flags * 2 := by
  induction ranges with
  | nil => rw [List.length_nil, Nat.zero_mul, Nat.zero_mul]; rfl
  | cons r ranges ih =>
    rw [List.flatMap_cons, List.length_append, List.length_append, ih, length_encodeChar_charSize,
      length_encodeChar_charSize, List.length_cons, Nat.add_mul, Nat.add_mul]
    omega

/-- The matcher is behind the class when the character is in it or not, whichever the class asks for. -/
theorem charClass_at {cls : CharClass} (h : At code bc (cls.bytes flags.unicode)) (str : Nat) (st : Matcher) :
    charClass tables flags subject code bc str st =
      some (if subject.inputEnd ≤ str then .fail st
        else if cls.matches flags.unicode (ecmaRegexpAdvance tables flags subject str).1 = cls.inverted then .fail st
        else .goOn (bc + (cls.bytes flags.unicode).length) (ecmaRegexpAdvance tables flags subject str).2 st) := by
  rw [charClass]
  by_cases hend : subject.inputEnd ≤ str
  · rw [if_pos hend, if_pos hend]
  rw [if_neg hend, if_neg hend]
  obtain ⟨hchars, hranges, hinverted, hescapes⟩ := cls.bits
  rw [CharClass.bytes, CharClass.counts] at h
  have hflags := getByte_at h
  have hrest := (at_cons_iff.mp h).2
  rw [at_append_iff, at_append_iff, at_append_iff, at_append_iff] at hrest
  obtain ⟨⟨hcount1, hcount2⟩, hesc, hch, hra⟩ := hrest
  obtain ⟨charCount, hread1, hcharCount⟩ := count_at cls.chars_lt hcount1
  obtain ⟨rangeCount, hread2, hrangeCount⟩ := count_at cls.ranges_lt hcount2
  generalize hcp : (ecmaRegexpAdvance tables flags subject str).1 = cp
  generalize hnext : (ecmaRegexpAdvance tables flags subject str).2 = next
  have hadvance : ecmaRegexpAdvance tables flags subject str = (cp, next) := by rw [← hcp, ← hnext]
  obtain ⟨left1, bc1, hmatch1, hend1, hnone1⟩ := matchEscapes_at cp hesc
  have hlength : (cls.bytes flags.unicode).length = 1 + cls.counts.length + cls.escapes.length +
      cls.chars.length * charSize flags + cls.ranges.length * charSize flags * 2 := by
    rw [CharClass.bytes, List.length_cons, List.length_append, List.length_append, List.length_append, List.length_map,
      length_flatMap_chars, length_flatMap_ranges]
    omega
  rw [List.length_append] at hesc hch hra hmatch1 hend1
  rw [List.length_map] at hch hra
  rw [length_flatMap_chars] at hra
  have hcounts : cls.counts.length = (if cls.chars = [] then ([] : List Byte)
      else encodeValue (BitVec.ofNat 32 cls.chars.length)).length + (if cls.ranges = [] then ([] : List Byte)
      else encodeValue (BitVec.ofNat 32 cls.ranges.length)).length := List.length_append
  rw [hflags]
  simp only [Option.bind_eq_bind, Option.bind_some]
  rw [hchars, hranges, hread1]
  simp only [Option.bind_some]
  rw [hread2]
  simp only [Option.bind_some]
  rw [hadvance, hescapes, hinverted, hcharCount, hrangeCount]
  simp only
  rw [CharClass.matches]
  rw [← Nat.add_assoc] at hmatch1
  rw [hmatch1]
  simp only [Option.bind_some]
  cases hany1 : cls.escapes.any (ecmaRegexpCheckClassEscape cp) with
  | true =>
    rw [if_pos rfl, classFound, Bool.true_or, Bool.true_or]
    cases cls.inverted with
    | true => rfl
    | false =>
      rw [if_neg Bool.false_ne_true, if_neg (fun h => Bool.noConfusion h), hlength]
      congr 2
      omega
  | false =>
    have hleft := hnone1 hany1
    have hbc1 : bc1 = bc + 1 + ((if cls.chars = [] then ([] : List Byte)
      else encodeValue (BitVec.ofNat 32 cls.chars.length)).length + (if cls.ranges = [] then ([] : List Byte)
      else encodeValue (BitVec.ofNat 32 cls.ranges.length)).length) + cls.escapes.length := by omega
    rw [← hbc1] at hch hra
    obtain ⟨left2, bc2, hmatch2, hend2, hnone2⟩ := matchChars_at cp hch
    rw [if_neg Bool.false_ne_true, hmatch2, Bool.false_or]
    simp only [Option.bind_some]
    cases hany2 : cls.chars.any (fun c => cp == storedChar flags.unicode c) with
    | true =>
      rw [if_pos rfl, classFound, Bool.true_or]
      cases cls.inverted with
      | true => rfl
      | false =>
        rw [if_neg Bool.false_ne_true, if_neg (fun h => Bool.noConfusion h), hlength]
        congr 2
        omega
    | false =>
      have hleft2 := hnone2 hany2
      have hbc2 : bc2 = bc1 + cls.chars.length * charSize flags := by
        rw [hleft2, Nat.zero_mul] at hend2
        exact hend2
      rw [← hbc2] at hra
      obtain ⟨left3, bc3, hmatch3, hend3, hnone3⟩ := matchRanges_at cp hra
      rw [if_neg Bool.false_ne_true, hmatch3, Bool.false_or]
      simp only [Option.bind_some]
      cases hany3 : cls.ranges.any (fun r => decide (storedChar flags.unicode r.1 ≤ cp) &&
          decide (cp ≤ storedChar flags.unicode r.2)) with
      | true =>
        rw [if_pos rfl, classFound]
        cases cls.inverted with
        | true => rfl
        | false =>
          rw [if_neg Bool.false_ne_true, if_neg (fun h => Bool.noConfusion h), hlength]
          congr 2
          omega
      | false =>
        have hleft3 := hnone3 hany3
        rw [hleft3, Nat.zero_mul, Nat.zero_mul] at hend3
        rw [if_neg Bool.false_ne_true]
        cases cls.inverted with
        | true =>
          rw [if_pos rfl, if_neg Bool.false_ne_true, hlength]
          congr 2
          omega
        | false => rfl

/-! ## Matching an atom -/

variable (tables flags subject)

/-- The atom matches the input at an address in it. -/
def Atom.accepts (str : Nat) : Atom → Bool
  | .byte b => b == subject.memory str
  | .char cp => storedChar flags.unicode cp == (ecmaRegexpAdvance tables flags subject str).1
  | .classEscape escape => ecmaRegexpCheckClassEscape (ecmaRegexpAdvance tables flags subject str).1 escape
  | .charClass cls => cls.matches flags.unicode (ecmaRegexpAdvance tables flags subject str).1 != cls.inverted
  | .period =>
    if flags.unicode then
      let cp := (ecmaRegexpUnicodeAdvance subject.memory str subject.inputEnd).1
      !decide (flags.dotAll = false ∧ cp ≤ 0xffff#32 ∧ litCharIsLineTerminator (cp.setWidth 16))
    else !decide (flags.dotAll = false ∧ litCharIsLineTerminator (litCesu8ReadNext subject.memory str).1)

/-- The address behind what an atom matches. -/
def Atom.next (str : Nat) : Atom → Nat
  | .byte _ => str + 1
  | _ => (ecmaRegexpAdvance tables flags subject str).2

/-- What an instruction for an atom makes of the loop. -/
def Atom.outcome (atom : Atom) (bc str : Nat) (st : Matcher) : Next :=
  if subject.inputEnd ≤ str then .fail st
  else if atom.accepts tables flags subject str then
    .goOn (bc + (atom.bytes flags.unicode).length) (atom.next tables flags subject str) st
  else .fail st

variable {tables flags subject}

theorem advance_of_unicode (h : flags.unicode = true) (str : Nat) :
    ecmaRegexpAdvance tables flags subject str =
      (ecmaRegexpCanonicalize tables (ecmaRegexpUnicodeAdvance subject.memory str subject.inputEnd).1 flags,
        (ecmaRegexpUnicodeAdvance subject.memory str subject.inputEnd).2) := by
  rw [ecmaRegexpAdvance, if_pos h]

theorem advance_of_not_unicode (h : flags.unicode = false) (str : Nat) :
    ecmaRegexpAdvance tables flags subject str =
      (ecmaRegexpCanonicalize tables ((litCesu8ReadNext subject.memory str).1.setWidth 32) flags,
        (litCesu8ReadNext subject.memory str).2) := by
  rw [ecmaRegexpAdvance, if_neg (by rw [h]; exact Bool.false_ne_true)]

/-- An atom is an instruction, and the matcher goes on behind it or fails. -/
theorem Atom.instruction_at {atom : Atom} (h : At code bc (atom.bytes flags.unicode)) (call : Call) (str : Nat)
    (st : Matcher) :
    ∃ op, getOpcode code bc = some (op, bc + 1) ∧
      instruction tables flags subject code call op (bc + 1) str st =
        some (atom.outcome tables flags subject bc str st) := by
  rw [Atom.outcome]
  cases atom with
  | byte b =>
    have hop : At code bc (Opcode.byte.toByte :: [b]) := h
    refine ⟨.byte, getOpcode_at hop, ?_⟩
    rw [instruction, Regexp.byte]
    by_cases hend : subject.inputEnd ≤ str
    · rw [if_pos hend, if_pos hend]
    · rw [if_neg hend, if_neg hend, getByte_at (at_cons_iff.mp hop).2]
      simp only [Option.bind_eq_bind, Option.bind_some]
      by_cases hb : b = subject.memory str
      · rw [if_neg (not_not_intro hb), Atom.accepts, beq_iff_eq.mpr hb, if_pos rfl]
        rfl
      · rw [if_pos hb, Atom.accepts, beq_eq_false_iff_ne.mpr hb, if_neg Bool.false_ne_true]
  | char cp =>
    have hop : At code bc (Opcode.char.toByte :: encodeChar flags.unicode cp) := h
    refine ⟨.char, getOpcode_at hop, ?_⟩
    rw [instruction, Regexp.char]
    by_cases hend : subject.inputEnd ≤ str
    · rw [if_pos hend, if_pos hend]
    · rw [if_neg hend, if_neg hend, getChar_stored (at_cons_iff.mp hop).2]
      simp only [Option.bind_eq_bind, Option.bind_some]
      by_cases hcp : storedChar flags.unicode cp = (ecmaRegexpAdvance tables flags subject str).1
      · rw [if_neg (not_not_intro hcp), Atom.accepts, beq_iff_eq.mpr hcp, if_pos rfl, Atom.bytes, List.length_cons,
          Nat.add_assoc, Nat.add_comm 1]
        rfl
      · rw [if_pos hcp, Atom.accepts, beq_eq_false_iff_ne.mpr hcp, if_neg Bool.false_ne_true]
  | classEscape escape =>
    have hop : At code bc (Opcode.classEscape.toByte :: [escape.toByte]) := h
    refine ⟨.classEscape, getOpcode_at hop, ?_⟩
    rw [instruction, Regexp.classEscape]
    by_cases hend : subject.inputEnd ≤ str
    · rw [if_pos hend, if_pos hend]
    · rw [if_neg hend, if_neg hend, getByte_at (at_cons_iff.mp hop).2]
      simp only [Option.bind_eq_bind, Option.bind_some]
      rw [ofByte_toByte_escape]
      rfl
  | charClass cls =>
    have hop : At code bc (Opcode.charClass.toByte :: cls.bytes flags.unicode) := h
    refine ⟨.charClass, getOpcode_at hop, ?_⟩
    rw [instruction, charClass_at (at_cons_iff.mp hop).2]
    by_cases hend : subject.inputEnd ≤ str
    · rw [if_pos hend, if_pos hend]
    · rw [if_neg hend, if_neg hend, Atom.accepts, Atom.bytes, List.length_cons, Nat.add_assoc, Nat.add_comm 1]
      cases hmatches : cls.matches flags.unicode (ecmaRegexpAdvance tables flags subject str).1 with
      | true => cases cls.inverted <;> rfl
      | false => cases cls.inverted <;> rfl
  | period =>
    cases hunicode : flags.unicode with
    | true =>
      have hop : At code bc (Opcode.unicodePeriod.toByte :: []) := by
        rw [hunicode] at h
        exact h
      refine ⟨.unicodePeriod, getOpcode_at hop, ?_⟩
      have hnext : Atom.next tables flags subject str .period =
          (ecmaRegexpUnicodeAdvance subject.memory str subject.inputEnd).2 := by
        show (ecmaRegexpAdvance tables flags subject str).2 = _
        rw [advance_of_unicode hunicode]
      rw [instruction, unicodePeriod]
      by_cases hend : subject.inputEnd ≤ str
      · rw [if_pos hend, if_pos hend]
      · rw [if_neg hend, if_neg hend, hnext, Atom.accepts, if_pos hunicode]
        dsimp only
        by_cases hline : flags.dotAll = false ∧
            (ecmaRegexpUnicodeAdvance subject.memory str subject.inputEnd).1 ≤ 0xffff#32 ∧
            litCharIsLineTerminator
              ((ecmaRegexpUnicodeAdvance subject.memory str subject.inputEnd).1.setWidth 16) = true
        · rw [if_pos hline, if_neg (by rw [decide_eq_true hline]; exact Bool.false_ne_true)]
        · rw [if_neg hline, if_pos (by rw [decide_eq_false hline]; rfl)]
          rfl
    | false =>
      have hop : At code bc (Opcode.period.toByte :: []) := by
        rw [hunicode] at h
        exact h
      have hneg : ¬flags.unicode = true := by
        rw [hunicode]
        exact Bool.false_ne_true
      refine ⟨.period, getOpcode_at hop, ?_⟩
      have hnext : Atom.next tables flags subject str .period = (litCesu8ReadNext subject.memory str).2 := by
        show (ecmaRegexpAdvance tables flags subject str).2 = _
        rw [advance_of_not_unicode hunicode]
      rw [instruction, Regexp.period]
      by_cases hend : subject.inputEnd ≤ str
      · rw [if_pos hend, if_pos hend]
      · rw [if_neg hend, if_neg hend, hnext, Atom.accepts, if_neg hneg]
        dsimp only
        by_cases hline : flags.dotAll = false ∧
            litCharIsLineTerminator (litCesu8ReadNext subject.memory str).1 = true
        · rw [if_pos hline, if_neg (by rw [decide_eq_true hline]; exact Bool.false_ne_true)]
        · rw [if_neg hline, if_pos (by rw [decide_eq_false hline]; rfl)]
          rfl

/-- The body of a character iterator matches one character and comes back. -/
theorem Atom.run_at {atom : Atom} (h : At code bc (atom.bytes flags.unicode ++ [Opcode.iteratorEnd.toByte]))
    {depth str : Nat} {st : Matcher} {result : Result}
    (hrun : ecmaRegexpRun tables flags subject code depth bc str st = some result) :
    result = (if str < subject.inputEnd ∧ atom.accepts tables flags subject str = true
      then some (atom.next tables flags subject str) else none, st) := by
  obtain ⟨hatom, hend⟩ := at_append_iff.mp h
  cases depth with
  | zero => cases hrun
  | succ depth =>
    obtain ⟨op, hop, hinstruction⟩ :=
      @Atom.instruction_at tables flags subject code bc atom hatom (ecmaRegexpRun tables flags subject code depth) str st
    rw [ecmaRegexpRun_succ, runLoop, hop] at hrun
    simp only [Option.bind_eq_bind, Option.bind_some] at hrun
    rw [hinstruction, Option.bind_some, Atom.outcome] at hrun
    by_cases hinput : subject.inputEnd ≤ str
    · rw [if_pos hinput] at hrun
      rw [if_neg (fun hc => Nat.not_lt.mpr hinput hc.1)]
      cases hrun
      rfl
    · rw [if_neg hinput] at hrun
      by_cases haccepts : atom.accepts tables flags subject str = true
      · rw [if_pos haccepts] at hrun
        rw [if_pos ⟨Nat.lt_of_not_le hinput, haccepts⟩]
        cases depth with
        | zero => cases hrun
        | succ depth =>
          dsimp only at hrun
          rw [runLoop, getOpcode_at hend] at hrun
          cases hrun
          rfl
      · rw [if_neg haccepts] at hrun
        rw [if_neg (fun hc => haccepts hc.2)]
        cases hrun
        rfl

end

end Regexp
end JJS
