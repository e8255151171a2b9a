import JJS.Lexer.Elements

/-!
# JJS.Lexer.Cooked

The first pass in cooked mode: a round reads an element of the literal (`parseStringRound_cooked`), and the loop reads
the elements up to the end and counts what they stand for (`parseStringLoop_cooked`).
-/

namespace JJS
namespace Lexer

open Utf8 Lit Strings StringLiteral

/-- The character that ends a literal is an ASCII one. -/
def Ends (q : Byte) (delimiter : Point) : Prop := delimiter.val = q.toNat ∧ q.toNat < 0x80

section

variable {q : Byte} {scan scan' : Scan} {c : Point} {s : List Point} {b : Byte} {t : List Byte} {isStrict : Bool}
  {start : LineCounter × LineCounter} {delimiter : Point}

theorem Ends.template (h : Ends q delimiter) : q = 0x60#8 ↔ IsTemplate delimiter := by
  rw [eq_toNat (by decide), IsTemplate, h.1]

theorem Ends.first (h : Ends q delimiter) (he : c.encode = b :: t) : b = q ↔ c = delimiter := by
  have hb := first_eq he h.2
  rw [BitVec.ofNat_toNat, BitVec.setWidth_eq] at hb
  rw [hb, ← h.1]
  exact ⟨Fin.ext, fun h => by rw [h]⟩

/-! ## Escapes -/

/-- What the escape that begins with `x` or `u` stands for. -/
theorem unicodeEscape_eq {m l : Nat} (hx : c.val = 0x78 ∨ c.val = 0x75) (he : c.encode = b :: t)
    (h : unicodeEscape (b :: (t ++ utf8 s)) = some (m, l)) :
    ∃ (p : Point) (rest : List Point), p.val = m ∧ escape (c :: s) = some (.escape p, rest) ∧
      (utf8 (c :: s)).drop l = utf8 rest := by
  have ht := tail_ascii he (by omega)
  have hnl : ¬IsNewline c := by
    rw [IsNewline]
    omega
  have hescape : escape (c :: s) = if c.val = 0x78 then (hexDigits 2 0 s).bind codePoint
      else if Next 0x7b s then (bracedDigits 0 s.tail).bind codePoint else (hexDigits 4 0 s).bind codePoint := by
    rw [escape, lineTerminator_eq, if_neg hnl]
    dsimp only
    rw [if_neg (by omega), if_neg (by omega), if_neg (by omega)]
    by_cases h78 : c.val = 0x78
    · rw [if_pos h78, if_pos h78]
    · rw [if_neg h78, if_neg h78, if_pos (by omega)]
  have hpoint : ∀ (n : Nat) (rest : List Point) (hn : n < 0x110000),
      codePoint (n, rest) = some (.escape ⟨n, hn⟩, rest) := fun n rest hn => dif_pos hn
  have htext : utf8 (c :: s) = b :: utf8 s := by
    rw [utf8_cons, he, ht]
    rfl
  rw [ht, List.nil_append, unicodeEscape] at h
  simp only [first_eq he (show 0x78 < 0x80 by decide), first_eq he (show 0x75 < 0x80 by decide),
    head_iff (show 0x7b < 0x80 by decide)] at h
  rw [hescape, htext]
  by_cases h78 : c.val = 0x78
  · rw [if_neg (by omega)] at h
    simp only [if_pos h78] at h
    rw [if_pos h78]
    split at h
    · obtain ⟨m', hm', heq⟩ := Option.map_eq_some_iff.mp h
      cases heq
      obtain ⟨rest, hrest, hdrop, hm⟩ := lexerHexToCodePoint_eq hm'
      have hmax : m < 0x110000 := Nat.lt_of_lt_of_le hm (by decide)
      refine ⟨⟨m, hmax⟩, rest, rfl, ?_, ?_⟩
      · rw [hrest]
        exact hpoint _ rest hmax
      · rw [List.drop_succ_cons]
        exact hdrop
    · cases h
  have h75 : c.val = 0x75 := hx.resolve_left h78
  simp only [if_neg h78] at h
  rw [if_neg h78]
  split at h
  · rename_i hu
    obtain ⟨-, -, hnext⟩ := hu
    obtain ⟨r, hr, heq⟩ := Option.map_eq_some_iff.mp h
    rw [tail_utf8 (by decide : 0x7b < 0x80) hnext] at hr
    obtain ⟨rest, hrest, hlt, hdrop, hm⟩ := lexerHexInBracesToCodePoint_eq (m := r.1) hr
    cases heq
    refine ⟨⟨r.1, hm⟩, rest, rfl, ?_, ?_⟩
    · rw [if_pos hnext, hrest]
      exact hpoint _ rest hm
    · rw [← tail_utf8 (by decide : 0x7b < 0x80) hnext, ← List.drop_one, List.drop_drop] at hdrop
      rw [show r.2 - 1 = (1 + (r.2 - 4 + 1)) + 1 by omega, List.drop_succ_cons]
      exact hdrop
  rename_i hu
  split at h
  · rename_i hlen
    obtain ⟨m', hm', heq⟩ := Option.map_eq_some_iff.mp h
    cases heq
    obtain ⟨rest, hrest, hdrop, hm⟩ := lexerHexToCodePoint_eq hm'
    have hnext : ¬Next 0x7b s := fun hn => hu ⟨by omega, h75, hn⟩
    have hmax : m < 0x110000 := Nat.lt_of_lt_of_le hm (by decide)
    refine ⟨⟨m, hmax⟩, rest, rfl, ?_, ?_⟩
    · rw [if_neg hnext, hrest]
      exact hpoint _ rest hmax
    · rw [List.drop_succ_cons]
      exact hdrop
  · cases h

theorem singleEscape_length (c : Point) : (cesu8 (singleEscape c).units).length = (cesu8 c.units).length := by
  have hone : ∀ c : Point, c.val < 0x80 → (cesu8 c.units).length = 1 := by
    intro c hc
    rw [← litCodePointGetCesu8Length_eq, litCodePointGetCesu8Length, if_pos hc]
  rw [singleEscape]
  split
  · rw [hone _ (by decide), hone c (by omega)]
  split
  · rw [hone _ (by decide), hone c (by omega)]
  split
  · rw [hone _ (by decide), hone c (by omega)]
  split
  · rw [hone _ (by decide), hone c (by omega)]
  split
  · rw [hone _ (by decide), hone c (by omega)]
  split
  · rw [hone _ (by decide), hone c (by omega)]
  · rfl

theorem legacyOctal_eq (hlow : 0x30 ≤ c.val) (hhigh : c.val ≤ 0x37) :
    (legacyOctal c s).2 = (octalDigits (if c.val ≤ 0x33 then 2 else 1) (c.val - 0x30) s).2 ∧
      (cesu8 (legacyOctal c s).1.units).length =
        if c.val ≤ 0x33 ∧ octalCount 2 (utf8 s) = 2 ∧ 0x32 ≤ c.val then 2 else 1 := by
  refine ⟨rfl, ?_⟩
  rw [legacyOctal]
  dsimp only [Element.units]
  rw [← litCodePointGetCesu8Length_eq, litCodePointGetCesu8Length, Fin.val_ofNat]
  by_cases h3 : c.val ≤ 0x33
  · rw [if_pos h3]
    obtain ⟨-, hge, hlt, hcount⟩ := octalCount_eq 2 (c.val - 0x30) s
    generalize (octalDigits 2 (c.val - 0x30) s).1 = m at hge hlt
    have hcases : octalCount 2 (utf8 s) = 0 ∨ octalCount 2 (utf8 s) = 1 ∨ octalCount 2 (utf8 s) = 2 := by omega
    rcases hcases with h0 | h1 | h2
    · rw [h0] at hlt ⊢
      rw [if_pos (by omega), if_neg (by omega)]
    · rw [h1] at hlt ⊢
      rw [if_pos (by omega), if_neg (by omega)]
    · rw [h2] at hge hlt ⊢
      by_cases h32 : 0x32 ≤ c.val
      · rw [if_neg (by omega), if_pos (by omega), if_pos ⟨h3, rfl, h32⟩]
      · rw [if_pos (by omega), if_neg (fun h => h32 h.2.2)]
  · rw [if_neg h3, if_neg (c := _ ∧ _) (fun h => h3 h.1)]
    obtain ⟨-, -, hlt, hcount⟩ := octalCount_eq 1 (c.val - 0x30) s
    have hcases : octalCount 1 (utf8 s) = 0 ∨ octalCount 1 (utf8 s) = 1 := by omega
    rcases hcases with h0 | h1
    · rw [h0] at hlt
      rw [if_pos (by omega)]
    · rw [h1] at hlt
      rw [if_pos (by omega)]

/-- The escape that stands here is read, with the flag set before. -/
theorem cookedEscapeRound_read (hnl : ¬IsNewline c) (he : c.encode = b :: t) (hflag : scan.statusFlags = .hasEscape)
    (h : cookedEscapeRound isStrict q scan b (t ++ utf8 s) = .ok (.next scan')) :
    ∃ e rest, escape (c :: s) = some (e, rest) ∧ scan'.source = utf8 rest ∧
      scan'.length = scan.length + (cesu8 e.units).length ∧ scan'.statusFlags = .hasEscape := by
  have hdigit : (utf8 s).head?.any (fun d => decide (d < 0x30#8) || decide (0x39#8 < d)) = true → ¬NextIsDigit s := by
    intro h hd
    cases s with
    | nil => cases hd
    | cons d s =>
      obtain ⟨hd1, hd2⟩ : 0x30 ≤ d.val ∧ d.val ≤ 0x39 := hd
      obtain ⟨b', t', he', -⟩ := encode_first d
      rw [utf8_cons, he', List.cons_append, List.head?_cons, Option.any_some, Bool.or_eq_true, decide_eq_true_eq,
        decide_eq_true_eq] at h
      have h1 := (first_ge he' (show 0x30 < 0x80 by decide)).mpr hd1
      have h2 := (first_le he' (show 0x39 < 0x80 by decide)).mpr hd2
      cases h with
      | inl h => exact absurd h1 (BitVec.not_le.mpr h)
      | inr h => exact absurd h2 (BitVec.not_le.mpr h)
  rw [cookedEscapeRound] at h
  simp only [first_eq he (show 0x30 < 0x80 by decide), first_eq he (show 0x78 < 0x80 by decide),
    first_eq he (show 0x75 < 0x80 by decide), first_ge he (show 0x30 < 0x80 by decide),
    first_ge he (show 0x34 < 0x80 by decide), first_ge he (show 0x32 < 0x80 by decide),
    first_le he (show 0x33 < 0x80 by decide), first_le he (show 0x37 < 0x80 by decide)] at h
  have hescape : escape (c :: s) = if c.val = 0x30 ∧ ¬ NextIsDigit s then some (.escape 0, s)
      else if 0x30 ≤ c.val ∧ c.val ≤ 0x37 then some (legacyOctal c s)
      else if c.val = 0x38 ∨ c.val = 0x39 then some (.legacy c, s)
      else if c.val = 0x78 then (hexDigits 2 0 s).bind codePoint
      else if c.val = 0x75 then
        if Next 0x7b s then (bracedDigits 0 s.tail).bind codePoint else (hexDigits 4 0 s).bind codePoint
      else some (.escape (singleEscape c), s) := by
    rw [escape, lineTerminator_eq, if_neg hnl]
  split at h
  · rename_i hzero
    obtain ⟨hzero, hnext⟩ := hzero
    have ht := tail_ascii he (by omega)
    rw [ht, List.nil_append] at hnext h
    cases h
    exact ⟨_, s, by rw [hescape, if_pos ⟨hzero, hdigit hnext⟩], rfl, rfl, hflag⟩
  rename_i hzero
  split at h
  · rename_i hoct
    have ht := tail_ascii he (by omega)
    rw [ht, List.nil_append] at h hzero
    split at h
    · cases h
    split at h
    · cases h
    cases h
    obtain ⟨hdrop, -⟩ := octalCount_eq 2 (c.val - 0x30) s
    obtain ⟨hrest, hlen⟩ := legacyOctal_eq (s := s) hoct.1 (by omega)
    rw [if_pos hoct.2] at hrest
    by_cases hnul : c.val = 0x30 ∧ ¬NextIsDigit s
    · -- a zero at the end of the text
      have hnil : s = [] := by
        cases s with
        | nil => rfl
        | cons d s =>
          exfalso
          refine hzero ⟨hnul.1, ?_⟩
          obtain ⟨b', t', he', -⟩ := encode_first d
          have hd : ¬(0x30 ≤ d.val ∧ d.val ≤ 0x39) := hnul.2
          rw [utf8_cons, he', List.cons_append, List.head?_cons, Option.any_some, Bool.or_eq_true, decide_eq_true_eq,
            decide_eq_true_eq]
          by_cases h30 : 0x30 ≤ d.val
          · exact Or.inr (BitVec.not_le.mp fun hle => hd ⟨h30, (first_le he' (by decide)).mp hle⟩)
          · exact Or.inl (BitVec.not_le.mp fun hle => h30 ((first_ge he' (by decide)).mp hle))
      subst hnil
      refine ⟨.escape 0, [], by rw [hescape, if_pos hnul], rfl, ?_, hflag⟩
      rfl
    · refine ⟨_, _, by rw [hescape, if_neg hnul, if_pos ⟨hoct.1, by omega⟩], ?_, ?_, hflag⟩
      · rw [hrest, ← hdrop]
      · rw [hlen]
        by_cases h2 : octalCount 2 (utf8 s) = 2 ∧ 0x32 ≤ c.val
        · rw [if_pos h2, if_pos ⟨hoct.2, h2.1, h2.2⟩]
        · rw [if_neg h2, if_neg (fun h => h2 h.2)]
  rename_i hoct
  split at h
  · rename_i hhigh
    have ht := tail_ascii he (by omega)
    rw [ht, List.nil_append] at h
    split at h
    · cases h
    cases h
    obtain ⟨hdrop, -⟩ := octalCount_eq 1 (c.val - 0x30) s
    obtain ⟨hrest, hlen⟩ := legacyOctal_eq (s := s) (by omega) hhigh.2
    rw [if_neg (by omega)] at hrest
    refine ⟨_, _, by rw [hescape, if_neg (by omega), if_pos ⟨by omega, hhigh.2⟩], ?_, ?_, hflag⟩
    · rw [hrest, ← hdrop]
    · rw [hlen, if_neg (by omega)]
  rename_i hhigh
  split at h
  · rename_i hx
    split at h
    · cases h
    · rename_i m l hm
      obtain ⟨p, rest, hp, hesc, hdrop⟩ := unicodeEscape_eq hx he hm
      cases h
      refine ⟨_, rest, hesc, ?_, ?_, hflag⟩
      · rw [utf8_cons, he] at hdrop
        exact hdrop
      · rw [← hp, litCodePointGetCesu8Length_eq]
        rfl
  · rename_i hx
    obtain ⟨-, hread, -⟩ := plainRound_read he h
    have hcr : c.val ≠ 0x0d := fun hc => hnl (Or.inl hc)
    rw [plainRest, if_neg hcr, plainUnits, if_neg hcr] at hread
    have hflags : scan'.statusFlags = .hasEscape := by
      cases hread.flags with
      | inl hf => exact hf
      | inr hf => rw [hf.1, hflag]
    by_cases h8 : c.val = 0x38 ∨ c.val = 0x39
    · refine ⟨.legacy c, s, by rw [hescape, if_neg (by omega), if_neg (by omega), if_pos h8], hread.source, ?_, hflags⟩
      rw [hread.length]
      rfl
    · refine ⟨_, s, by rw [hescape, if_neg (by omega), if_neg (by omega), if_neg h8, if_neg (by omega), if_neg (by omega)],
        hread.source, ?_, hflags⟩
      rw [hread.length, ← singleEscape_length]
      rfl

/-! ## The loop -/

theorem plainRound_ne_done {s : List Byte} (h : plainRound q scan b s = .ok (.done scan')) : False := by
  unfold plainRound at h
  repeat' split at h
  all_goals cases h

theorem utf8_first (he : c.encode = b :: t) (s : List Point) : utf8 (c :: s) = b :: (t ++ utf8 s) := by
  rw [utf8_cons, he]
  rfl

theorem escapeRound_ne_done {opts : LexerStringOptions} (h : escapeRound isStrict opts q scan = .ok (.done scan')) :
    False := by
  rw [escapeRound] at h
  split at h
  · cases h
  dsimp only at h
  split at h
  · cases h
  cases opts with
  | raw =>
    dsimp only at h
    split at h
    · cases h
    · cases h
  | noOpts =>
    rw [cookedEscapeRound] at h
    repeat' split at h
    all_goals first
      | cases h
      | exact plainRound_ne_done h

/-- A round ends where the literal ends. -/
theorem parseStringRound_done {opts : LexerStringOptions} (hq : Ends q delimiter) (hs : scan.source = utf8 s)
    (h : parseStringRound start isStrict opts q scan = .ok (.done scan')) :
    ∃ last rest, ending delimiter s = some rest ∧ scan'.source = last :: utf8 rest ∧ scan'.length = scan.length ∧
      scan'.statusFlags = scan.statusFlags ∧
      ((utf8 s).length : Int) + scan'.rawLengthAdjust = scan'.source.length + scan.rawLengthAdjust ∧
      (last = q ∨ last = 0x7b#8 ∧ q = 0x60#8) := by
  cases s with
  | nil =>
    rw [parseStringRound, hs] at h
    cases h
  | cons c s =>
    obtain ⟨b, t, he, -⟩ := encode_first c
    rw [parseStringRound, hs, utf8_first he] at h
    dsimp only at h
    simp only [hq.first he, hq.template, first_eq he (show 0x5c < 0x80 by decide), first_eq he (show 0x24 < 0x80 by decide)] at h
    rw [ending]
    split at h
    · rename_i hc
      have hval := hq.1
      have ht := tail_ascii he (by rw [hc, hval]; exact hq.2)
      cases h
      rw [if_pos hc]
      refine ⟨b, s, rfl, by rw [hs, utf8_first he, ht]; rfl, rfl, rfl, by rw [hs], Or.inl ((hq.first he).mpr hc)⟩
    rename_i hc
    split at h
    · exact (escapeRound_ne_done h).elim
    rename_i hbs
    split at h
    · rename_i hopen
      obtain ⟨htemplate, hdollar, hnext⟩ := hopen
      have ht := tail_ascii he (by omega)
      rw [ht, List.nil_append] at h hnext
      have hnext := (head_iff (show 0x7b < 0x80 by decide) s).mp hnext
      cases h
      rw [if_neg hc, if_pos ⟨htemplate, hdollar, hnext⟩]
      cases s with
      | nil => cases hnext
      | cons d s =>
        have hd : d.val = 0x7b := hnext
        have hd8 : BitVec.ofNat 8 d.val = 0x7b#8 := by rw [hd]
        refine ⟨0x7b#8, s, rfl, ?_, rfl, rfl, ?_, Or.inr ⟨rfl, hq.template.mpr htemplate⟩⟩
        · dsimp only
          rw [utf8_ascii (by omega), hd8]
        · dsimp only
          rw [utf8_ascii (c := c) (by omega), List.length_cons]
          omega
    · exact (plainRound_ne_done h).elim

/-- In cooked mode a round reads an element, unless the text ends after a backslash. -/
theorem parseStringRound_cooked (hq : Ends q delimiter) (hs : scan.source = utf8 s)
    (h : parseStringRound start isStrict .noOpts q scan = .ok (.next scan')) :
    ending delimiter s = none ∧
      (scan'.source = [] ∨ ∃ e rest, element delimiter s = some (e, rest) ∧ Read scan scan' s rest e.units) := by
  cases s with
  | nil =>
    rw [parseStringRound, hs] at h
    cases h
  | cons c s =>
    obtain ⟨b, t, he, -⟩ := encode_first c
    rw [parseStringRound, hs, utf8_first he] at h
    dsimp only at h
    simp only [hq.first he, hq.template, first_eq he (show 0x5c < 0x80 by decide), first_eq he (show 0x24 < 0x80 by decide)] at h
    rw [ending, element]
    split at h
    · cases h
    rename_i hc
    rw [if_neg hc]
    split at h
    · rename_i hbs
      have ht := tail_ascii he (by omega)
      rw [ht, List.nil_append] at h
      rw [if_neg (by omega), if_pos hbs]
      refine ⟨rfl, ?_⟩
      cases s with
      | nil =>
        cases h
        exact Or.inl rfl
      | cons d s =>
        right
        obtain ⟨b', t', he', -⟩ := encode_first d
        rw [escapeRound, utf8_first he'] at h
        dsimp only at h
        rw [← utf8_first he'] at h
        by_cases hd : IsNewline d
        · obtain ⟨adjust, hline, -⟩ := lineContinuation_newline hd s
          rw [hline] at h
          cases h
          refine ⟨.continuation, plainRest d s, ?_, rfl, rfl, Or.inl rfl⟩
          rw [escape, lineTerminator_eq, if_pos hd]
        · rw [lineContinuation_none hd] at h
          obtain ⟨e, rest, hesc, hsource, hlength, hflags⟩ := cookedEscapeRound_read hd he' rfl h
          exact ⟨e, rest, hesc, hsource, hlength, Or.inl hflags⟩
    rename_i hbs
    split at h
    · cases h
    rename_i hopen
    have hnot : ¬(IsTemplate delimiter ∧ c.val = 0x24 ∧ Next 0x7b s) := by
      intro hn
      refine hopen ⟨hn.1, hn.2.1, ?_⟩
      rw [tail_ascii he (by omega)]
      exact (head_iff (by decide) s).mpr hn.2.2
    rw [if_neg hnot, if_neg hbs]
    obtain ⟨htemplate, hread, -⟩ := plainRound_read he h
    refine ⟨rfl, Or.inr ?_⟩
    rw [plainRest, plainUnits] at hread
    by_cases hcr : c.val = 0x0d
    · rw [if_pos hcr, if_pos hcr] at hread
      rw [if_pos hcr, if_pos (hq.template.mp (htemplate (Or.inl hcr)))]
      exact ⟨.lineFeed, _, rfl, hread⟩
    · rw [if_neg hcr, if_neg hcr] at hread
      rw [if_neg hcr]
      by_cases hlf : c.val = 0x0a
      · rw [if_pos hlf, if_pos (hq.template.mp (htemplate (Or.inr hlf)))]
        exact ⟨.character c, _, rfl, hread⟩
      · rw [if_neg hlf]
        exact ⟨.character c, _, rfl, hread⟩

theorem parseStringLoop_eq (start : LineCounter × LineCounter) (isStrict : Bool) (opts : LexerStringOptions) (q : Byte)
    (scan : Scan) : parseStringLoop start isStrict opts q scan =
      match parseStringRound start isStrict opts q scan with
      | .error e => .error e
      | .ok (.done scan) => .ok scan
      | .ok (.next scan) => parseStringLoop start isStrict opts q scan := by
  rw [parseStringLoop]
  split
  · rename_i h
    rw [h]
  · rename_i h
    rw [h]
  · rename_i h
    rw [h]

/-- What is left at the end is the end of the text. -/
theorem parseStringLoop_suffix {opts : LexerStringOptions} (h : parseStringLoop start isStrict opts q scan = .ok scan') :
    scan'.source <:+ scan.source := by
  induction hn : scan.source.length using Nat.strong_induction_on generalizing scan with
  | _ n ih =>
    rw [parseStringLoop_eq] at h
    split at h
    · cases h
    · rename_i scan1 hround
      cases h
      unfold parseStringRound at hround
      split at hround
      · cases hround
      rename_i c s hs
      rw [hs]
      split at hround
      · cases hround
        rw [hs]
      split at hround
      · exact (escapeRound_ne_done hround).elim
      split at hround
      · cases hround
        exact List.suffix_cons c s
      · exact (plainRound_ne_done hround).elim
    · rename_i scan1 hround
      obtain ⟨c, s, hs, hsuffix⟩ := parseStringRound_suffix hround
      have hlt := parseStringRound_shorter hround
      have hrest := ih scan1.source.length (by omega) h rfl
      rw [hs]
      exact hrest.trans (hsuffix.trans (List.suffix_cons c s))

theorem parseStringLoop_nil {opts : LexerStringOptions} (h : scan.source = []) :
    parseStringLoop start isStrict opts q scan = .error ⟨.unterminatedString, some (start.1, start.2 - 1)⟩ := by
  rw [parseStringLoop_eq, parseStringRound, h]

/-- In cooked mode the loop reads the elements of the literal. -/
theorem parseStringLoop_cooked (hq : Ends q delimiter) (hs : scan.source = utf8 s)
    (h : parseStringLoop start isStrict .noOpts q scan = .ok scan') :
    ∃ es last rest, elements delimiter s = some (es, rest) ∧ scan'.source = last :: utf8 rest ∧
      scan'.length = scan.length + (cesu8 (es.flatMap Element.units)).length ∧
      (scan'.statusFlags = .hasEscape ∨ scan'.statusFlags = scan.statusFlags ∧
        ∃ w, utf8 s = cesu8 (es.flatMap Element.units) ++ (w ++ utf8 rest)) ∧ (last = q ∨ last = 0x7b#8 ∧ q = 0x60#8) := by
  induction hn : s.length using Nat.strong_induction_on generalizing s scan with
  | _ n ih =>
    rw [parseStringLoop_eq] at h
    split at h
    · cases h
    · rename_i scan1 hround
      cases h
      obtain ⟨last, rest, hend, hsource, hlength, hflags, -, hlast⟩ := parseStringRound_done hq hs hround
      obtain ⟨c, s', rfl, hsuffix⟩ := ending_suffix hend
      exact ⟨[], last, rest, elements_ending hend, hsource, hlength,
        Or.inr ⟨hflags, utf8_suffix (hsuffix.trans (List.suffix_cons c s'))⟩, hlast⟩
    · rename_i scan1 hround
      obtain ⟨hend, hor⟩ := parseStringRound_cooked hq hs hround
      cases hor with
      | inl hnil =>
        rw [parseStringLoop_nil hnil] at h
        cases h
      | inr hread =>
        obtain ⟨e, rest, helem, hread⟩ := hread
        have hlen := element_length helem
        obtain ⟨es, last, rest', hes, hsource, hlength, hflags, hlast⟩ :=
          ih rest.length (by omega) hread.source h rfl
        refine ⟨e :: es, last, rest', ?_, hsource, ?_, ?_, hlast⟩
        · rw [elements_element hend helem, hes]
          rfl
        · rw [hlength, hread.length, List.flatMap_cons, cesu8_append, List.length_append, Nat.add_assoc]
        · cases hflags with
          | inl hf => exact Or.inl hf
          | inr hf =>
            obtain ⟨hf, r, htext⟩ := hf
            rw [hf, List.flatMap_cons, cesu8_append]
            cases hread.flags with
            | inl hf1 => exact Or.inl hf1
            | inr hf1 =>
              refine Or.inr ⟨hf1.1, r, ?_⟩
              rw [hf1.2, htext, List.append_assoc]

end

end Lexer
end JJS
