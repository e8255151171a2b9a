import JJS.Lexer.Write

/-!
# JJS.Lexer.Agree

The two passes over a literal. The second one writes what the first one has counted, reads nothing behind the literal
and stops at its end; `passes_agree_iff` says when this is the value of the literal.
-/

namespace JJS
namespace Lexer

open Utf8 Lit Strings StringLiteral

/-- The text `s` follows the character at the start of a literal: a quotation mark, or a grave accent or right brace in
front of a part of a template. -/
def StartsLiteral (context : ParserContext) (before : Byte) (delimiter : Point) (s : List Point) : Prop :=
  context.source = before :: utf8 s ∧
    (before = 0x22#8 ∧ delimiter = 0x22 ∨ before = 0x27#8 ∧ delimiter = 0x27 ∨
      (before = 0x60#8 ∨ before = 0x7d#8) ∧ delimiter = accent)

/-- The string value, the template value or the template raw value, and the text behind the literal. -/
def literalValue (opts : LexerStringOptions) (delimiter : Point) (s : List Point) : Option (List CodeUnit × List Point) :=
  match opts with
  | .noOpts => cooked delimiter s
  | .raw => raw s

/-- The second pass was inside of the literal all the time, and stopped where the first one did after it had written as
many bytes as that one has counted. When it returns the source, the literal has that many. -/
def Converted.Fits (token : Token) (literal : List Byte) : Converted → Prop
  | .source => token.length ≤ literal.length
  | .buffer out stop => out.length = token.length ∧ stop = [token.last]

/-- The second pass, on nothing but the literal, agrees with the first one, and the characters are the value of the
literal. -/
def PassesAgree (opts : LexerStringOptions) (before : Byte) (delimiter : Point) (s : List Point) (token : Token) : Prop :=
  ∃ literal rest converted, s = literal ++ rest ∧ token.source = utf8 rest ∧
    lexerConvertLiteralToChars opts token.statusFlags before (utf8 literal) = some converted ∧
    converted.Fits token (utf8 literal) ∧
    ∃ us, literalValue opts delimiter s = some (us, rest) ∧ converted.chars token.length (utf8 literal) = cesu8 us

/-- A template has no octal escape and no escaped eight or nine, and a raw template no escaped opening. -/
def HasValue (opts : LexerStringOptions) (delimiter : Point) (s : List Point) : Prop :=
  match opts with
  | .noOpts => ∀ es rest, elements delimiter s = some (es, rest) → ¬Valueless delimiter es
  | .raw => hasEscapedOpening s = false

section

variable {opts : LexerStringOptions} {context : ParserContext} {before : Byte} {delimiter : Point} {s : List Point}
  {token : Token}

theorem StartsLiteral.ends (h : StartsLiteral context before delimiter s) :
    Ends (if before = 0x7d#8 then 0x60#8 else before) delimiter ∧ delimiter.val ≠ 0x5c := by
  obtain ⟨-, ⟨hb, hd⟩ | ⟨hb, hd⟩ | ⟨hb | hb, hd⟩⟩ := h
  · rw [hb, hd]
    exact ⟨⟨rfl, by decide⟩, by decide⟩
  · rw [hb, hd]
    exact ⟨⟨rfl, by decide⟩, by decide⟩
  · rw [hb, hd]
    exact ⟨⟨rfl, by decide⟩, by decide⟩
  · rw [hb, hd]
    exact ⟨⟨rfl, by decide⟩, by decide⟩

theorem StartsLiteral.template (h : StartsLiteral context before delimiter s) (ht : IsTemplate delimiter) :
    StartsTemplate context s ∧ delimiter = accent ∧ (if before = 0x7d#8 then 0x60#8 else before) = 0x60#8 := by
  obtain ⟨hsource, ⟨hb, hd⟩ | ⟨hb, hd⟩ | ⟨hb | hb, hd⟩⟩ := h
  · rw [hd] at ht
    exact absurd ht (by decide)
  · rw [hd] at ht
    exact absurd ht (by decide)
  · rw [hb] at hsource ⊢
    exact ⟨Or.inl hsource, hd, rfl⟩
  · rw [hb] at hsource ⊢
    exact ⟨Or.inr hsource, hd, rfl⟩

/-- What the two passes share: the loop of the second one writes the value of the literal on its own text, and the
first one has counted it. -/
theorem passesAgree_of {us : List CodeUnit} {literal rest : List Point} {x : Byte}
    (hs : s = literal ++ rest) (hvalue : literalValue opts delimiter s = some (us, rest))
    (hloop : convertLoop (if before = 0x7d#8 then 0x60#8 else before) (decide (opts = .raw)) (utf8 literal) =
      some (cesu8 us, [x])) (hx : [x] <:+ utf8 literal) (hsource : token.source = utf8 rest)
    (hlength : token.length = (cesu8 us).length) (hlast : token.last :: token.source <:+ utf8 s)
    (hflags : token.statusFlags = .hasEscape ∨ ∃ w, utf8 s = cesu8 us ++ (w ++ utf8 rest)) :
    PassesAgree opts before delimiter s token := by
  have hx' : x = token.last := by
    rw [hsource] at hlast
    obtain ⟨w, hw⟩ := hx
    refine last_eq (r := utf8 rest) (t := utf8 s) ⟨w, ?_⟩ hlast
    rw [hs, utf8_append, ← hw, List.append_assoc]
    rfl
  cases hf : token.statusFlags with
  | hasEscape =>
    refine ⟨literal, rest, .buffer (cesu8 us) [x], hs, hsource, ?_, ⟨hlength.symm, by rw [hx']⟩, us, hvalue, ?_⟩
    · rw [hf, lexerConvertLiteralToChars, hloop]
      rfl
    · rw [hlength]
      exact List.take_length
  | isAscii =>
    cases hflags with
    | inl h =>
      rw [hf] at h
      cases h
    | inr h =>
      obtain ⟨w, hw⟩ := h
      rw [hs, utf8_append, ← List.append_assoc] at hw
      have hliteral := List.append_cancel_right hw
      refine ⟨literal, rest, .source, hs, hsource, by rw [hf]; rfl, ?_, us, hvalue, ?_⟩
      · rw [Converted.Fits, hlength, hliteral, List.length_append]
        exact Nat.le_add_right _ _
      · rw [Converted.chars, hlength, hliteral, List.take_left]

/-- The passes agree on the value of the literal just when it has one. -/
theorem passes_agree_iff (hstart : StartsLiteral context before delimiter s)
    (hopts : opts = .raw → IsTemplate delimiter) (htoken : lexerParseString context opts = .ok token) :
    PassesAgree opts before delimiter s token ↔ HasValue opts delimiter s := by
  cases opts with
  | noOpts =>
    obtain ⟨hq, hbs⟩ := hstart.ends
    have hparse : (parseStringLoop (context.line, context.column + 1) context.isStrict .noOpts
        (if before = 0x7d#8 then 0x60#8 else before) (initialScan context (utf8 s))).bind
          (finishString context .noOpts (if before = 0x7d#8 then 0x60#8 else before) (utf8 s)) = .ok token := by
      rw [← htoken, lexerParseString, hstart.1]
    obtain ⟨scan, hloop, hfinish⟩ := Outcome.bind_eq_ok hparse
    obtain ⟨es, rest, hes, -, hsource, hlength, hlast, hflags⟩ := lexerParseString_cooked hq hloop hfinish
    constructor
    · intro hagree es' rest' hes' hnone
      obtain ⟨_, _, _, -, -, -, -, us, hvalue, -⟩ := hagree
      rw [literalValue, cooked, hes'] at hvalue
      dsimp only at hvalue
      rw [if_pos hnone] at hvalue
      cases hvalue
    · intro hhas
      obtain ⟨literal, hs, -, hliteral⟩ := elements_append hes
      obtain ⟨x, hconvert, hx⟩ := convertLoop_cooked hq hbs hliteral
      refine passesAgree_of hs ?_ hconvert hx hsource hlength hlast hflags
      rw [literalValue, cooked, hes]
      dsimp only
      rw [if_neg (hhas es rest hes)]
  | raw =>
    obtain ⟨htemplate, hdelimiter, hq⟩ := hstart.template (hopts rfl)
    cases hno : hasEscapedOpening s with
    | true =>
      refine iff_of_false ?_ ?_
      · intro hagree
        obtain ⟨literal, rest, _, -, hsource, -, -, us, hvalue, -⟩ := hagree
        obtain ⟨scan, tail, hloop, hscan, hshort⟩ := @parseStringLoop_opening
          (initialScan context (utf8 s)) s context.isStrict (context.line, context.column + 1) rfl hno
        rw [lexerParseString_template htemplate, hloop] at htoken
        dsimp only [Except.bind] at htoken
        rw [finishString_eq hscan] at htoken
        rcases ite_eq_iff.mp htoken with ⟨-, htoken⟩ | ⟨-, htoken⟩
        · cases htoken
        cases htoken
        have hsame : tail = rest := utf8_inj hsource
        have hlt := hshort us rest hvalue
        rw [hsame] at hlt
        omega
      · intro hhas
        rw [HasValue, hno] at hhas
        cases hhas
    | false =>
      refine iff_of_true ?_ hno
      cases hraw : raw s with
      | none =>
        obtain ⟨e, hloop⟩ := @parseStringLoop_none
          (initialScan context (utf8 s)) s context.isStrict (context.line, context.column + 1) rfl hno hraw
        rw [lexerParseString_template htemplate, hloop] at htoken
        cases htoken
      | some r =>
        obtain ⟨us, rest⟩ := r
        cases lexerParseString_raw htemplate hno hraw with
        | inl hlong =>
          rw [hlong.1] at htoken
          cases htoken
        | inr hok =>
          obtain ⟨-, token', htoken', -, hsource, hlength, hlast, hflags⟩ := hok
          rw [htoken] at htoken'
          cases htoken'
          obtain ⟨literal, hs, hne, hliteral⟩ := raw_append hraw
          have hno' : hasEscapedOpening literal = false := by
            cases h : hasEscapedOpening literal with
            | false => rfl
            | true =>
              rw [hs, hasEscapedOpening_append h rest] at hno
              cases hno
          obtain ⟨x, hconvert, hx⟩ := convertLoop_raw hno' hliteral
          refine passesAgree_of hs hraw ?_ hx hsource hlength hlast hflags
          rw [hq]
          exact hconvert

end

theorem passes_agree_accent : PassesAgree .noOpts 0x60#8 accent [0x5c, 0x60, 0x60] (templateToken [0x5c, 0x60, 0x60] 1 [] 5) := by
  have helements : elements accent [0x5c, 0x60, 0x60] = some ([.escape 0x60], []) := by
    rw [@elements_element accent _ [0x60] (.escape 0x60) (by decide) (by decide), @elements_ending accent _ [] (by decide)]
    rfl
  refine (passes_agree_iff ⟨rfl, Or.inr (Or.inr ⟨Or.inl rfl, rfl⟩)⟩ ?_ lexerParseString_cooked_accent).mpr ?_
  · intro h
    cases h
  intro es rest hes
  rw [helements] at hes
  cases hes
  decide

/-- A template with the escape `\4`, which has no template value, is read as a control character. -/
theorem passes_disagree : ∃ (opts : LexerStringOptions) (context : ParserContext) (before : Byte) (delimiter : Point)
    (s : List Point) (token : Token), StartsLiteral context before delimiter s ∧
    (opts = .raw → IsTemplate delimiter) ∧ lexerParseString context opts = .ok token ∧
    ¬PassesAgree opts before delimiter s token := by
  have h1 : parseStringRound (1, 1 + 1) false .noOpts 0x60#8
      (initialScan (templateContext [0x5c, 0x34, 0x60]) [0x5c#8, 0x34#8, 0x60#8]) =
        .ok (.next ⟨[0x60#8], 1, 4, 1, 0, .hasEscape, false⟩) := by decide
  have h2 : parseStringRound (1, 1 + 1) false .noOpts 0x60#8 ⟨[0x60#8], 1, 4, 1, 0, .hasEscape, false⟩ =
      .ok (.done ⟨[0x60#8], 1, 4, 1, 0, .hasEscape, false⟩) := by decide
  refine ⟨.noOpts, templateContext [0x5c, 0x34, 0x60], 0x60#8, accent, [0x5c, 0x34, 0x60],
    templateToken [0x5c, 0x34, 0x60] 1 [] 5, ⟨rfl, Or.inr (Or.inr ⟨Or.inl rfl, rfl⟩)⟩, nofun, ?_, ?_⟩
  · rw [lexerParseString_template (Or.inl rfl)]
    show ((parseStringLoop (1, 1 + 1) false .noOpts 0x60#8
      (initialScan (templateContext [0x5c, 0x34, 0x60]) [0x5c#8, 0x34#8, 0x60#8])).bind _) = _
    rw [parseStringLoop_eq, h1]
    dsimp only
    rw [parseStringLoop_eq, h2]
    rfl
  · intro hagree
    obtain ⟨_, _, _, -, -, -, -, us, hvalue, -⟩ := hagree
    have helements : elements accent [0x5c, 0x34, 0x60] = some ([.legacy 0x04], []) := by
      rw [@elements_element accent _ [0x60] (.legacy 0x04) (by decide) (by decide), @elements_ending accent _ [] (by decide)]
      rfl
    rw [literalValue, cooked, helements] at hvalue
    dsimp only at hvalue
    rw [if_pos (by decide)] at hvalue
    cases hvalue

end Lexer
end JJS
