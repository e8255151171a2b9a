import JJS.Lexer.Raw

/-!
# JJS.Lexer.Convert

The second pass over a string literal or a part of a template, `lexer_convert_literal_to_chars` of `js-lexer.c`. It
writes the characters that the first pass has counted. It does not know where the source ends: a read behind the bytes
that it is given is not modelled.
-/

namespace JJS
namespace Lexer

open Utf8 Lit Strings StringLiteral

/-! ## The pass -/

/-- The loop of `lexer_unchecked_hex_to_character` with a length. The null case is a digit that the assertion rules
out, or a read behind the end. -/
def uncheckedDigits : Nat → Nat → List Byte → Option (Nat × List Byte)
  | 0, result, s => some (result, s)
  | _ + 1, _, [] => none
  | length + 1, result, byte :: s => (hexByte byte).bind fun digit => uncheckedDigits length (result * 16 + digit) s

/-- The same between braces. -/
def uncheckedBraces : Nat → List Byte → Option (Nat × List Byte)
  | _, [] => none
  | result, byte :: s =>
    match hexByte byte, s with
    | none, _ => none
    | some _, [] => none
    | some digit, c :: s =>
      if c ≠ 0x7d#8 then uncheckedBraces (result * 16 + digit) (c :: s) else some (result * 16 + digit, s)

/-- `lexer_unchecked_hex_to_character`, after the character `before`. -/
def lexerUncheckedHexToCharacter (before : Byte) : List Byte → Option (Nat × List Byte)
  | [] => none
  | c :: s =>
    if c = 0x7b#8 then uncheckedBraces 0 s else uncheckedDigits (if before = 0x75#8 then 4 else 2) 0 (c :: s)

/-- The octal digits behind the first one, at most so many. -/
def octalNumber : Nat → Nat → List Byte → Option (Nat × List Byte)
  | 0, number, s => some (number, s)
  | _ + 1, _, [] => none
  | n + 1, number, b :: s =>
    if isOctalDigit b then octalNumber n (number * 8 + (b.toNat - 0x30)) s else some (number, b :: s)

/-- The switch over the escapes of one character. -/
def convCharacter (c : Byte) : Byte :=
  if c = 0x62#8 then 0x08#8 else if c = 0x74#8 then 0x09#8 else if c = 0x6e#8 then 0x0a#8
  else if c = 0x76#8 then 0x0b#8 else if c = 0x66#8 then 0x0c#8 else if c = 0x72#8 then 0x0d#8 else c

/-- The bytes that continue a character, up to the next character. -/
def copyExtra : List Byte → Option (List Byte × List Byte)
  | [] => none
  | b :: s => if isExtraByte b then (copyExtra s).map fun r => (b :: r.1, r.2) else some ([], b :: s)

/-- A round of the loop goes on after it has written some bytes, or ends it. -/
inductive ConvertRound where
  | next (out : List Byte) (source : List Byte)
  | done (source : List Byte)
deriving DecidableEq

/-- The last lines of the loop: a character that stands for itself. -/
def copyCharacter (c : Byte) (s : List Byte) : Option ConvertRound :=
  if 0xf0#8 ≤ c then
    match s with
    | b :: d :: e :: s => some (.next (litFourByteUtf8CharToCesu8 c b d e) s)
    | _ => none
  else (copyExtra s).map fun r => .next (c :: r.1) r.2

/-- The part of the loop after a backslash, not in raw mode. -/
def convertEscape : List Byte → Option ConvertRound
  | [] => none
  | c :: s =>
    if c = 0x0d#8 then
      match s with
      | [] => none
      | d :: s => if d = 0x0a#8 then some (.next [] s) else some (.next [] (d :: s))
    else if c = 0x0a#8 then some (.next [] s)
    else if isNewlineLsPs (c :: s) then some (.next [] (s.drop 2))
    else if 0x30#8 ≤ c ∧ c ≤ 0x33#8 then
      (octalNumber 2 (c.toNat - 0x30) s).map fun r => .next (litCodePointToCesu8Bytes (BitVec.ofNat 32 r.1)) r.2
    else if 0x34#8 ≤ c ∧ c ≤ 0x37#8 then
      (octalNumber 1 (c.toNat - 0x30) s).map fun r => .next [BitVec.ofNat 8 r.1] r.2
    else if c = 0x78#8 ∨ c = 0x75#8 then
      (lexerUncheckedHexToCharacter c s).map fun r => .next (litCodePointToCesu8Bytes (BitVec.ofNat 32 r.1)) r.2
    else if convCharacter c ≠ c then some (.next [convCharacter c] s)
    else copyCharacter c s

/-- A round of the loop. -/
def convertRound (strEndCharacter : Byte) (isRaw : Bool) : List Byte → Option ConvertRound
  | [] => none
  | c :: s =>
    if c = strEndCharacter then some (.done (c :: s))
    else if c = 0x5c#8 ∧ !isRaw then convertEscape s
    else if strEndCharacter = 0x60#8 then
      if c = 0x24#8 then
        match s with
        | [] => none
        | d :: s => if d = 0x7b#8 then some (.done (d :: s)) else copyCharacter c (d :: s)
      else if c = 0x0d#8 then
        match s with
        | [] => none
        | d :: s =>
          if d ≠ strEndCharacter ∧ d = 0x0a#8 then some (.next [0x0a#8] s) else some (.next [0x0a#8] (d :: s))
      else if c = 0x5c#8 ∧ isRaw then
        match s with
        | [] => none
        | d :: s => if d = 0x60#8 ∨ d = 0x5c#8 then some (.next [c, d] s) else copyCharacter c (d :: s)
      else copyCharacter c s
    else copyCharacter c s

section

variable {s : List Byte} {r : Nat × List Byte} {out s' : List Byte}

theorem uncheckedDigits_shorter {k n : Nat} (h : uncheckedDigits k n s = some r) : r.2.length ≤ s.length := by
  induction k generalizing n s with
  | zero =>
    cases h
    exact Nat.le_refl _
  | succ k ih =>
    cases s with
    | nil => cases h
    | cons b s =>
      obtain ⟨d, -, h⟩ := Option.bind_eq_some_iff.mp h
      exact Nat.le_succ_of_le (ih h)

theorem uncheckedBraces_shorter {n : Nat} (h : uncheckedBraces n s = some r) : r.2.length ≤ s.length := by
  induction s generalizing n with
  | nil => cases h
  | cons b s ih =>
    rw [uncheckedBraces.eq_def] at h
    dsimp only at h
    split at h
    · cases h
    · cases h
    · split at h
      · exact Nat.le_succ_of_le (ih h)
      · cases h
        simp only [List.length_cons]
        omega

theorem hexToCharacter_shorter {before : Byte} (h : lexerUncheckedHexToCharacter before s = some r) :
    r.2.length ≤ s.length := by
  cases s with
  | nil => cases h
  | cons c s =>
    rw [lexerUncheckedHexToCharacter] at h
    split at h
    · exact Nat.le_succ_of_le (uncheckedBraces_shorter h)
    · exact uncheckedDigits_shorter h

theorem octalNumber_shorter {k n : Nat} (h : octalNumber k n s = some r) : r.2.length ≤ s.length := by
  induction k generalizing n s with
  | zero =>
    cases h
    exact Nat.le_refl _
  | succ k ih =>
    cases s with
    | nil => cases h
    | cons b s =>
      rw [octalNumber] at h
      split at h
      · exact Nat.le_succ_of_le (ih h)
      · cases h
        exact Nat.le_refl _

theorem copyExtra_shorter {p : List Byte × List Byte} (h : copyExtra s = some p) : p.2.length ≤ s.length := by
  induction s generalizing p with
  | nil => cases h
  | cons b s ih =>
    rw [copyExtra] at h
    split at h
    · obtain ⟨p', hp, heq⟩ := Option.map_eq_some_iff.mp h
      cases heq
      exact Nat.le_succ_of_le (show p'.2.length ≤ s.length from ih hp)
    · cases h
      exact Nat.le_refl _

theorem copyCharacter_shorter {c : Byte} (h : copyCharacter c s = some (.next out s')) : s'.length ≤ s.length := by
  unfold copyCharacter at h
  split at h
  · split at h
    · cases h
      simp only [List.length_cons]
      omega
    · cases h
  · obtain ⟨r, hr, heq⟩ := Option.map_eq_some_iff.mp h
    cases heq
    exact copyExtra_shorter hr

theorem convertEscape_shorter (h : convertEscape s = some (.next out s')) : s'.length ≤ s.length := by
  cases s with
  | nil => cases h
  | cons c s =>
    rw [convertEscape.eq_def] at h
    dsimp only at h
    rw [List.length_cons]
    split at h
    · cases s with
      | nil => cases h
      | cons d s =>
        dsimp only at h
        split at h
        · cases h
          rw [List.length_cons]
          omega
        · cases h
          exact Nat.le_succ _
    split at h
    · cases h
      exact Nat.le_succ _
    split at h
    · cases h
      rw [List.length_drop]
      omega
    split at h
    · obtain ⟨r, hr, heq⟩ := Option.map_eq_some_iff.mp h
      cases heq
      exact Nat.le_succ_of_le (octalNumber_shorter hr)
    split at h
    · obtain ⟨r, hr, heq⟩ := Option.map_eq_some_iff.mp h
      cases heq
      exact Nat.le_succ_of_le (octalNumber_shorter hr)
    split at h
    · obtain ⟨r, hr, heq⟩ := Option.map_eq_some_iff.mp h
      cases heq
      exact Nat.le_succ_of_le (hexToCharacter_shorter hr)
    split at h
    · cases h
      exact Nat.le_succ _
    · exact Nat.le_succ_of_le (copyCharacter_shorter h)

/-- A round that goes on has read a byte. -/
theorem convertRound_shorter {q : Byte} {isRaw : Bool} (h : convertRound q isRaw s = some (.next out s')) :
    s'.length < s.length := by
  cases s with
  | nil => cases h
  | cons c s =>
    rw [convertRound.eq_def] at h
    dsimp only at h
    rw [List.length_cons]
    split at h
    · cases h
    split at h
    · exact Nat.lt_succ_of_le (convertEscape_shorter h)
    split at h
    · split at h
      · cases s with
        | nil => cases h
        | cons d s =>
          dsimp only at h
          split at h
          · cases h
          · exact Nat.lt_succ_of_le (copyCharacter_shorter h)
      split at h
      · cases s with
        | nil => cases h
        | cons d s =>
          dsimp only at h
          split at h
          · cases h
            rw [List.length_cons]
            omega
          · cases h
            exact Nat.lt_succ_self _
      split at h
      · cases s with
        | nil => cases h
        | cons d s =>
          dsimp only at h
          split at h
          · cases h
            rw [List.length_cons]
            omega
          · exact Nat.lt_succ_of_le (copyCharacter_shorter h)
      · exact Nat.lt_succ_of_le (copyCharacter_shorter h)
    · exact Nat.lt_succ_of_le (copyCharacter_shorter h)

end

/-- The loop: the bytes that are written, and the bytes from `source_p` on at its end. -/
def convertLoop (strEndCharacter : Byte) (isRaw : Bool) (s : List Byte) : Option (List Byte × List Byte) :=
  match h : convertRound strEndCharacter isRaw s with
  | none => none
  | some (.done stop) => some ([], stop)
  | some (.next out s') => (convertLoop strEndCharacter isRaw s').map fun r => (out ++ r.1, r.2)
termination_by s.length
decreasing_by exact convertRound_shorter h

/-- What is returned: the source itself, or the buffer after the loop, which ended before the bytes `stop`. -/
inductive Converted where
  | source
  | buffer (out stop : List Byte)
deriving DecidableEq

/-- `lexer_convert_literal_to_chars` for a literal that is not an identifier. The source is read from `char_p` on, and
`before` stands in front of it. -/
def lexerConvertLiteralToChars (opts : LexerStringOptions) (statusFlags : LitLocationFlags) (before : Byte)
    (s : List Byte) : Option Converted :=
  match statusFlags with
  | .isAscii => some .source
  | .hasEscape =>
    (convertLoop (if before = 0x7d#8 then 0x60#8 else before) (decide (opts = .raw)) s).map fun r => .buffer r.1 r.2

/-- The characters that the caller reads at the pointer that is returned. -/
def Converted.chars (length : Nat) (s : List Byte) : Converted → List Byte
  | .source => s.take length
  | .buffer out _ => out.take length

end Lexer
end JJS
