import JJS.Lexer.Cooked
import JJS.Lib.Outcome

/-!
# JJS.Lexer.Raw

The first pass in raw mode, over a part of a template. A backslash protects a grave accent and a backslash, but not the
opening of a substitution, so the pass ends at an escaped one (`parseStringLoop_opening`). Where there is none it ends
with the raw value and measures it (`parseStringLoop_raw`). A tagged template reads each part both ways, and
`raw_agrees_iff` says when the two ways end at the same place.
-/

namespace JJS
namespace Lexer

open Utf8 Lit Strings StringLiteral

/-- Before its end, the part of the template has a backslash in front of the opening of a substitution. -/
def hasEscapedOpening : List Point → Bool
  | [] => false
  | c :: s =>
    if c.val = 0x60 then false
    else if c.val = 0x24 ∧ Next 0x7b s then false
    else if c.val = 0x5c then
      match s with
      | [] => false
      | d :: s => decide (d.val = 0x24 ∧ Next 0x7b s) || hasEscapedOpening s
    else hasEscapedOpening s

/-- The grave accent. -/
def accent : Point := 0x60

theorem ends_accent : Ends 0x60#8 accent := ⟨rfl, by decide⟩

section

variable {c d : Point} {s rest : List Point}

theorem hasEscapedOpening_plain (h1 : c.val ≠ 0x60) (h2 : c.val ≠ 0x5c) (h3 : ¬ (c.val = 0x24 ∧ Next 0x7b s)) :
    hasEscapedOpening (c :: s) = hasEscapedOpening s := by
  rw [hasEscapedOpening.eq_def]
  dsimp only
  rw [if_neg h1, if_neg h3, if_neg h2]

theorem hasEscapedOpening_escaped (h : c.val = 0x5c) :
    hasEscapedOpening (c :: d :: s) = (decide (d.val = 0x24 ∧ Next 0x7b s) || hasEscapedOpening s) := by
  rw [hasEscapedOpening.eq_def]
  dsimp only
  rw [if_neg (by omega), if_neg (by omega), if_pos h]

theorem hasEscapedOpening_accent (h : c.val = 0x60) : hasEscapedOpening (c :: s) = false := by
  rw [hasEscapedOpening.eq_def]
  exact if_pos h

theorem hasEscapedOpening_substitution (h : c.val = 0x24 ∧ Next 0x7b s) : hasEscapedOpening (c :: s) = false := by
  rw [hasEscapedOpening.eq_def]
  dsimp only
  rw [if_neg (by omega), if_pos h]

theorem hasEscapedOpening_backslash (h : c.val = 0x5c) : hasEscapedOpening [c] = false := by
  rw [hasEscapedOpening.eq_def]
  dsimp only
  rw [if_neg (by omega), if_neg (by omega), if_pos h]

/-- An escaped opening of a text is one of every longer text. -/
theorem hasEscapedOpening_append (h : hasEscapedOpening s = true) (r : List Point) : hasEscapedOpening (s ++ r) = true := by
  induction hn : s.length using Nat.strong_induction_on generalizing s with
  | _ n ih =>
    cases s with
    | nil => cases h
    | cons c s =>
      rw [List.length_cons] at hn
      by_cases h1 : c.val = 0x60
      · rw [hasEscapedOpening_accent h1] at h
        cases h
      by_cases h2 : c.val = 0x24 ∧ Next 0x7b s
      · rw [hasEscapedOpening_substitution h2] at h
        cases h
      by_cases h3 : c.val = 0x5c
      · cases s with
        | nil =>
          rw [hasEscapedOpening_backslash h3] at h
          cases h
        | cons d s =>
          rw [List.length_cons] at hn
          rw [hasEscapedOpening_escaped h3, Bool.or_eq_true, decide_eq_true_eq] at h
          rw [List.cons_append, List.cons_append, hasEscapedOpening_escaped h3, Bool.or_eq_true, decide_eq_true_eq]
          cases h with
          | inl hd =>
            refine Or.inl ⟨hd.1, (next_append ?_).mpr hd.2⟩
            intro hnil
            rw [hnil] at hd
            exact hd.2
          | inr hs => exact Or.inr (ih s.length (by omega) hs rfl)
      · rw [hasEscapedOpening_plain h1 h3 h2] at h
        have hne : s ≠ [] := by
          intro hnil
          rw [hnil] at h
          cases h
        rw [List.cons_append, hasEscapedOpening_plain h1 h3 fun hn => h2 ⟨hn.1, (next_append hne).mp hn.2⟩]
        exact ih s.length (by omega) h rfl

/-- A carriage return takes the line feed with it, in the raw value too. -/
theorem raw_plainRest (c : Point) (s : List Point) : (raw s).map (fun r => (rawUnits c s ++ r.1, r.2)) =
    (raw (plainRest c s)).map fun r => (plainUnits c ++ r.1, r.2) := by
  rw [plainRest, plainUnits, rawUnits]
  by_cases hcr : c.val = 0x0d
  · rw [if_pos hcr, if_pos hcr, if_pos hcr]
    cases s with
    | nil => rfl
    | cons d s =>
      rw [skipLineFeed]
      by_cases hlf : d.val = 0x0a
      · rw [if_pos hlf, if_pos (c := Next 0x0a (d :: s)) hlf, raw_plain (by omega) (by omega) (by omega),
          rawUnits, if_neg (by omega), Option.map_map, encode_lf hlf]
        rfl
      · rw [if_neg hlf, if_neg (c := Next 0x0a (d :: s)) hlf]
  · rw [if_neg hcr, if_neg hcr, if_neg hcr]

theorem hasEscapedOpening_plainRest (c : Point) (s : List Point) :
    hasEscapedOpening (plainRest c s) = hasEscapedOpening s := by
  rw [plainRest]
  split
  · cases s with
    | nil => rfl
    | cons d s =>
      rw [skipLineFeed]
      split
      · exact (hasEscapedOpening_plain (by omega) (by omega) (by omega)).symm
      · rfl
  · rfl

theorem plainRest_length (c : Point) (s : List Point) : (plainRest c s).length ≤ s.length := by
  rw [plainRest]
  split
  · exact (skipLineFeed_suffix s).length_le
  · exact Nat.le_refl _

theorem raw_length {us : List CodeUnit} (h : raw s = some (us, rest)) : rest.length < s.length := by
  induction hn : s.length using Nat.strong_induction_on generalizing s us with
  | _ n ih =>
    cases s with
    | nil => cases h
    | cons c s =>
      rw [List.length_cons] at hn
      by_cases h1 : c.val = 0x60
      · rw [raw_accent h1] at h
        cases h
        omega
      by_cases h2 : c.val = 0x24 ∧ Next 0x7b s
      · rw [raw_substitution h2.1 h2.2] at h
        cases h
        rw [List.length_tail]
        omega
      by_cases h3 : c.val = 0x5c
      · cases s with
        | nil =>
          rw [raw_backslash h3] at h
          cases h
        | cons d s =>
          rw [List.length_cons] at hn
          rw [raw_escaped h3] at h
          obtain ⟨r, hr, heq⟩ := Option.map_eq_some_iff.mp h
          cases heq
          have := ih s.length (by omega) hr rfl
          omega
      · rw [raw_plain h1 h3 h2] at h
        obtain ⟨r, hr, heq⟩ := Option.map_eq_some_iff.mp h
        cases heq
        have := ih s.length (by omega) hr rfl
        omega

end

/-! ## A round -/

section

variable {scan scan' : Scan} {c d : Point} {s rest : List Point} {isStrict : Bool}
  {start : LineCounter × LineCounter}

/-- A template has no plain character that stops the pass. -/
theorem plainRound_template (scan : Scan) (b : Byte) (s : List Byte) :
    ∃ scan', plainRound 0x60#8 scan b s = .ok (.next scan') := by
  unfold plainRound
  repeat' split
  all_goals first
    | exact ⟨_, rfl⟩
    | exact absurd rfl ‹_›

/-- The raw value and the rest of the text after a piece of it is read. -/
structure RawPiece (s rest : List Point) (us : List CodeUnit) : Prop where
  raw : raw s = (raw rest).map fun r => (us ++ r.1, r.2)
  opening : hasEscapedOpening s = hasEscapedOpening rest

/-- In raw mode a round reads a piece of the raw value, but of an escaped opening only the backslash. -/
theorem parseStringRound_raw (hs : scan.source = utf8 (c :: s)) (hend : ending accent (c :: s) = none) :
    ∃ scan' rest us, parseStringRound start isStrict .raw 0x60#8 scan = .ok (.next scan') ∧
      RawRead scan scan' (c :: s) rest us ∧ rest.length < (c :: s).length ∧
      (RawPiece (c :: s) rest us ∨
        c.val = 0x5c ∧ rest = s ∧ ∃ d x tail, s = d :: x :: tail ∧ d.val = 0x24 ∧ x.val = 0x7b) := by
  obtain ⟨b, t, he, -⟩ := encode_first c
  rw [ending] at hend
  split at hend
  · cases hend
  rename_i hc
  split at hend
  · cases hend
  rename_i hopen
  have hc : c.val ≠ 0x60 := fun h => hc (Fin.ext h)
  have hopen : ¬(c.val = 0x24 ∧ Next 0x7b s) := fun h => hopen ⟨rfl, h⟩
  have hq : b ≠ 0x60#8 := fun h => hc ((first_eq he (by decide)).mp h)
  rw [parseStringRound, hs, utf8_first he]
  dsimp only
  rw [if_neg hq]
  by_cases hbs : c.val = 0x5c
  · have ht := tail_ascii he (by omega)
    have hb : b = 0x5c#8 := (first_eq he (by decide)).mpr hbs
    have htext : ∀ s : List Point, utf8 (c :: s) = b :: utf8 s := by
      intro s
      rw [utf8_first he, ht]
      rfl
    have hunits : (cesu8 c.units).length = 1 := by
      rw [← litCodePointGetCesu8Length_eq, litCodePointGetCesu8Length, if_pos (by omega)]
    rw [if_pos hb, ht, List.nil_append]
    cases s with
    | nil =>
      refine ⟨_, [], c.units, rfl, ⟨rfl, ?_, Or.inr ⟨rfl, ?_⟩⟩, Nat.zero_lt_one, Or.inl ⟨?_, ?_⟩⟩
      · rw [htext, hunits]
        dsimp only [List.length_cons, utf8_nil]
        omega
      · rw [cesu8_units_short (by rw [IsLong]; omega)]
        rfl
      · rw [raw_backslash hbs]
        rfl
      · rw [hasEscapedOpening_backslash hbs]
        rfl
    | cons d s =>
      obtain ⟨b', t', he', -⟩ := encode_first d
      rw [escapeRound, utf8_first he']
      dsimp only
      rw [← utf8_first he']
      by_cases hd : IsNewline d
      · obtain ⟨adjust, hline, hadjust⟩ := lineContinuation_newline hd s
        have hdollar : ¬(d.val = 0x24 ∧ Next 0x7b s) := by
          rw [IsNewline] at hd
          omega
        rw [hline]
        refine ⟨_, plainRest d s, c.units ++ plainUnits d, rfl, ⟨rfl, ?_, Or.inl rfl⟩, ?_, Or.inl ⟨?_, ?_⟩⟩
        · rw [htext, cesu8_append, List.length_append, hunits, List.length_cons]
          dsimp only [Scan.newline]
          omega
        · have := plainRest_length d s
          rw [List.length_cons, List.length_cons]
          omega
        · have hrest := congrArg (Option.map fun r : List CodeUnit × List Point => (c.units ++ r.1, r.2)) (raw_plainRest d s)
          rw [Option.map_map, Option.map_map] at hrest
          rw [raw_escaped hbs]
          simp only [List.append_assoc]
          exact hrest
        · rw [hasEscapedOpening_escaped hbs, decide_eq_false hdollar, Bool.false_or, hasEscapedOpening_plainRest]
      · rw [lineContinuation_none hd]
        dsimp only
        have hcr : d.val ≠ 0x0d := fun h => hd (Or.inl h)
        by_cases hprotect : b' = 0x60#8 ∨ b' = 0x5c#8
        · have hval : d.val = 0x60 ∨ d.val = 0x5c := by
            rw [← first_eq he' (show 0x60 < 0x80 by decide), ← first_eq he' (show 0x5c < 0x80 by decide)]
            exact hprotect
          have ht' := tail_ascii he' (by omega)
          have hunits' : (cesu8 d.units).length = 1 := by
            rw [← litCodePointGetCesu8Length_eq, litCodePointGetCesu8Length, if_pos (by omega)]
          have hdollar : ¬(d.val = 0x24 ∧ Next 0x7b s) := by omega
          rw [if_pos hprotect]
          refine ⟨_, s, c.units ++ d.units, rfl, ⟨by rw [ht']; rfl, ?_, Or.inl rfl⟩, ?_, Or.inl ⟨?_, ?_⟩⟩
          · rw [htext, utf8_first he', ht', cesu8_append, List.length_append, hunits, hunits']
            dsimp only [List.length_cons, List.nil_append]
            omega
          · rw [List.length_cons, List.length_cons]
            omega
          · rw [raw_escaped hbs, rawUnits, if_neg hcr]
            simp only [List.append_assoc]
          · rw [hasEscapedOpening_escaped hbs, decide_eq_false hdollar, Bool.false_or]
        · have hval : d.val ≠ 0x60 ∧ d.val ≠ 0x5c := by
            exact ⟨fun h => hprotect (Or.inl ((first_eq he' (by decide)).mpr h)),
              fun h => hprotect (Or.inr ((first_eq he' (by decide)).mpr h))⟩
          rw [if_neg hprotect]
          refine ⟨_, d :: s, c.units, rfl, ⟨rfl, ?_, Or.inl rfl⟩, Nat.lt_succ_self _, ?_⟩
          · rw [htext, hunits, List.length_cons]
            dsimp only
            omega
          · by_cases hdollar : d.val = 0x24 ∧ Next 0x7b s
            · right
              refine ⟨hbs, rfl, ?_⟩
              cases s with
              | nil => exact hdollar.2.elim
              | cons x s => exact ⟨d, x, s, rfl, hdollar.1, hdollar.2⟩
            · left
              refine ⟨?_, ?_⟩
              · rw [raw_escaped hbs, raw_plain hval.1 hval.2 hdollar, Option.map_map]
                rfl
              · rw [hasEscapedOpening_escaped hbs, decide_eq_false hdollar, Bool.false_or,
                  hasEscapedOpening_plain hval.1 hval.2 hdollar]
  · have hb : b ≠ 0x5c#8 := fun h => hbs ((first_eq he (by decide)).mp h)
    have hnot : ¬((0x60#8 : Byte) = 0x60#8 ∧ b = 0x24#8 ∧ (t ++ utf8 s).head? = some 0x7b#8) := by
      intro hn
      have hdollar := (first_eq he (show 0x24 < 0x80 by decide)).mp hn.2.1
      have ht := tail_ascii he (by omega)
      rw [ht] at hn
      exact hopen ⟨hdollar, (head_iff (by decide) s).mp hn.2.2⟩
    rw [if_neg hb, if_neg hnot]
    obtain ⟨scan', hround⟩ := plainRound_template scan b (t ++ utf8 s)
    obtain ⟨-, -, hread⟩ := plainRound_read he hround
    refine ⟨scan', _, _, hround, hread, Nat.lt_succ_of_le (plainRest_length c s), Or.inl ⟨?_, ?_⟩⟩
    · rw [raw_plain hc hbs hopen, raw_plainRest]
    · rw [hasEscapedOpening_plain hc hbs hopen, hasEscapedOpening_plainRest]

/-! ## The loop -/

/-- The round at the end of a part of a template. -/
theorem parseStringRound_ending (hs : scan.source = utf8 s) (hend : ending accent s = some rest) :
    hasEscapedOpening s = false ∧ ∃ scan', parseStringRound start isStrict .raw 0x60#8 scan = .ok (.done scan') := by
  cases s with
  | nil => cases hend
  | cons c s =>
    obtain ⟨b, t, he, -⟩ := encode_first c
    rw [ending] at hend
    rw [parseStringRound, hs, utf8_first he]
    dsimp only
    split at hend
    · rename_i hc
      have hc : c.val = 0x60 := by rw [hc]; rfl
      cases hend
      rw [if_pos ((first_eq he (by decide)).mpr hc)]
      exact ⟨hasEscapedOpening_accent hc, _, rfl⟩
    split at hend
    · rename_i hc hopen
      obtain ⟨-, hdollar, hnext⟩ := hopen
      have hb : b = 0x24#8 := (first_eq he (by decide)).mpr hdollar
      have ht := tail_ascii he (by omega)
      cases hend
      rw [ht, List.nil_append, hb, if_neg (by decide), if_neg (by decide),
        if_pos ⟨rfl, rfl, (head_iff (by decide) s).mpr hnext⟩]
      exact ⟨hasEscapedOpening_substitution ⟨hdollar, hnext⟩, _, rfl⟩
    · cases hend

/-- Without an escaped opening the loop reads the raw value. -/
theorem parseStringLoop_raw (hs : scan.source = utf8 s) (hno : hasEscapedOpening s = false) {us : List CodeUnit}
    (hraw : raw s = some (us, rest)) : ∃ scan' last,
      parseStringLoop start isStrict .raw 0x60#8 scan = .ok scan' ∧ scan'.source = last :: utf8 rest ∧
      ((utf8 s).length : Int) + scan'.rawLengthAdjust = scan'.source.length + (cesu8 us).length + scan.rawLengthAdjust ∧
      (scan'.statusFlags = .hasEscape ∨ scan'.statusFlags = scan.statusFlags ∧
        ∃ w, utf8 s = cesu8 us ++ (w ++ utf8 rest)) := by
  induction hn : s.length using Nat.strong_induction_on generalizing s us scan with
  | _ n ih =>
    rw [parseStringLoop_eq]
    cases hend : ending accent s with
    | some rest' =>
      obtain ⟨-, scan', hround⟩ := @parseStringRound_ending _ _ _ isStrict start hs hend
      rw [raw_ending (show IsTemplate accent from rfl) hend] at hraw
      cases hraw
      obtain ⟨last, rest', hend', hsource, -, hflags, hadjust, -⟩ := parseStringRound_done ends_accent hs hround
      rw [hend] at hend'
      cases hend'
      rw [hround]
      obtain ⟨c, s', rfl, hsuffix⟩ := ending_suffix hend
      refine ⟨scan', last, rfl, hsource, ?_, Or.inr ⟨hflags, utf8_suffix (hsuffix.trans (List.suffix_cons c s'))⟩⟩
      rw [hadjust, cesu8_nil, List.length_nil]
      omega
    | none =>
      cases s with
      | nil => cases hraw
      | cons c s =>
        obtain ⟨scan1, rest1, us1, hround, hread, hlen, hor⟩ :=
          @parseStringRound_raw _ _ _ isStrict start hs hend
        rw [hround]
        cases hor with
        | inl hpiece =>
          rw [hpiece.raw] at hraw
          obtain ⟨r, hr, heq⟩ := Option.map_eq_some_iff.mp hraw
          cases heq
          rw [hpiece.opening] at hno
          obtain ⟨scan', last, hloop, hsource, hadjust, hflags⟩ := ih rest1.length (by omega) hread.source hno hr rfl
          refine ⟨scan', last, hloop, hsource, ?_, ?_⟩
          · have := hread.adjust
            rw [cesu8_append, List.length_append]
            omega
          · cases hflags with
            | inl hf => exact Or.inl hf
            | inr hf =>
              obtain ⟨hf, r', htext⟩ := hf
              rw [hf]
              cases hread.flags with
              | inl hf1 => exact Or.inl hf1
              | inr hf1 =>
                refine Or.inr ⟨hf1.1, r', ?_⟩
                rw [hf1.2, htext, cesu8_append, List.append_assoc]
        | inr hopening =>
          obtain ⟨hbs, -, d, x, tail, hs', hd, hx⟩ := hopening
          rw [hs', hasEscapedOpening_escaped hbs,
            decide_eq_true (show d.val = 0x24 ∧ Next 0x7b (x :: tail) from ⟨hd, hx⟩)] at hno
          cases hno

/-- Without an escaped opening the loop fails when there is no raw value. -/
theorem parseStringLoop_none (hs : scan.source = utf8 s) (hno : hasEscapedOpening s = false) (hraw : raw s = none) :
    ∃ e, parseStringLoop start isStrict .raw 0x60#8 scan = .error e := by
  induction hn : s.length using Nat.strong_induction_on generalizing s scan with
  | _ n ih =>
    cases hend : ending accent s with
    | some rest' =>
      rw [raw_ending (show IsTemplate accent from rfl) hend] at hraw
      cases hraw
    | none =>
      cases s with
      | nil => exact ⟨_, parseStringLoop_nil hs⟩
      | cons c s =>
        obtain ⟨scan1, rest1, us1, hround, hread, hlen, hor⟩ :=
          @parseStringRound_raw _ _ _ isStrict start hs hend
        rw [parseStringLoop_eq, hround]
        cases hor with
        | inl hpiece =>
          rw [hpiece.raw, Option.map_eq_none_iff] at hraw
          rw [hpiece.opening] at hno
          exact ih rest1.length (by omega) hread.source hno hraw rfl
        | inr hopening =>
          obtain ⟨hbs, -, d, x, tail, hs', hd, hx⟩ := hopening
          rw [hs', hasEscapedOpening_escaped hbs,
            decide_eq_true (show d.val = 0x24 ∧ Next 0x7b (x :: tail) from ⟨hd, hx⟩)] at hno
          cases hno

/-- The loop ends at an escaped opening, before the end of the raw value. -/
theorem parseStringLoop_opening (hs : scan.source = utf8 s) (hopening : hasEscapedOpening s = true) :
    ∃ scan' tail, parseStringLoop start isStrict .raw 0x60#8 scan = .ok scan' ∧ scan'.source = 0x7b#8 :: utf8 tail ∧
      ∀ us rest, raw s = some (us, rest) → rest.length < tail.length := by
  induction hn : s.length using Nat.strong_induction_on generalizing s scan with
  | _ n ih =>
    cases hend : ending accent s with
    | some rest' =>
      obtain ⟨hno, -⟩ := @parseStringRound_ending _ _ _ isStrict start hs hend
      rw [hno] at hopening
      cases hopening
    | none =>
      cases s with
      | nil => cases hopening
      | cons c s =>
        obtain ⟨scan1, rest1, us1, hround, hread, hlen, hor⟩ :=
          @parseStringRound_raw _ _ _ isStrict start hs hend
        rw [parseStringLoop_eq, hround]
        cases hor with
        | inl hpiece =>
          rw [hpiece.opening] at hopening
          obtain ⟨scan', tail, hloop, hsource, hshort⟩ := ih rest1.length (by omega) hread.source hopening rfl
          refine ⟨scan', tail, hloop, hsource, ?_⟩
          intro us rest hraw
          rw [hpiece.raw] at hraw
          obtain ⟨r, hr, heq⟩ := Option.map_eq_some_iff.mp hraw
          cases heq
          exact hshort _ _ hr
        | inr hopening =>
          -- the backslash is read, and the opening behind it ends the pass
          obtain ⟨hbs, hrest, d, x, tail, hs', hd, hx⟩ := hopening
          have hsource := hread.source
          have hd8 : BitVec.ofNat 8 d.val = 0x24#8 := by rw [hd]
          have hx8 : BitVec.ofNat 8 x.val = 0x7b#8 := by rw [hx]
          rw [hrest, hs', utf8_ascii (by omega), utf8_ascii (by omega), hd8, hx8] at hsource
          dsimp only
          rw [parseStringLoop_eq, parseStringRound, hsource]
          refine ⟨_, tail, rfl, rfl, ?_⟩
          intro us rest hraw
          rw [hs', raw_escaped hbs, raw_plain (by omega) (by omega) (by omega), Option.map_map] at hraw
          obtain ⟨r, hr, heq⟩ := Option.map_eq_some_iff.mp hraw
          cases heq
          exact raw_length hr

end

/-! ## Both ways -/

/-- A part of a template begins with a grave accent or the right brace of a substitution. -/
def StartsTemplate (context : ParserContext) (s : List Point) : Prop :=
  context.source = 0x60#8 :: utf8 s ∨ context.source = 0x7d#8 :: utf8 s

/-- From the same start, the pass in raw mode ends where the one in cooked mode does, with the same terminator. -/
def RawAgrees (context : ParserContext) (token : Token) : Prop :=
  ∃ token', lexerParseString context .raw = .ok token' ∧ token'.source = token.source ∧ token'.last = token.last

/-- The raw value is not longer than a string may be. -/
def RawFits (context : ParserContext) (s : List Point) : Prop :=
  ∀ us rest, raw s = some (us, rest) → (cesu8 us).length ≤ parserMaximumStringLength context.cpointer32Bit

section

variable {context : ParserContext} {s : List Point} {opts : LexerStringOptions} {token : Token}

theorem lexerParseString_template (hstart : StartsTemplate context s) (opts : LexerStringOptions) :
    lexerParseString context opts =
      (parseStringLoop (context.line, context.column + 1) context.isStrict opts 0x60#8
        (initialScan context (utf8 s))).bind (finishString context opts 0x60#8 (utf8 s)) := by
  cases hstart with
  | inl h =>
    rw [lexerParseString, h]
    rfl
  | inr h =>
    rw [lexerParseString, h]
    rfl

/-- What the pass leaves behind, when the literal is not too long. -/
theorem finishString_eq {q : Byte} {source : List Byte} {scan : Scan} {last : Byte} {rest : List Byte}
    (hsource : scan.source = last :: rest) :
    finishString context opts q source scan =
      if parserMaximumStringLength context.cpointer32Bit < measuredLength opts source scan then
        .error ⟨.stringTooLong, none⟩
      else .ok {
        type := if q ≠ 0x60#8 then .literal else .templateLiteral
        charP := source
        length := measuredLength opts source scan
        statusFlags := scan.statusFlags
        source := rest
        last := last
        line := scan.line
        column := scan.column + 1
        has4ByteMarker := scan.has4ByteMarker } := by
  rw [finishString, hsource]

/-- In raw mode the pass ends with the raw value, when it is not too long. -/
theorem lexerParseString_raw (hstart : StartsTemplate context s) (hno : hasEscapedOpening s = false)
    {us : List CodeUnit} {rest : List Point} (hraw : raw s = some (us, rest)) :
    (lexerParseString context .raw = .error ⟨.stringTooLong, none⟩ ∧
      parserMaximumStringLength context.cpointer32Bit < (cesu8 us).length) ∨
    (cesu8 us).length ≤ parserMaximumStringLength context.cpointer32Bit ∧
      ∃ token, lexerParseString context .raw = .ok token ∧ token.charP = utf8 s ∧ token.source = utf8 rest ∧
        token.length = (cesu8 us).length ∧ token.last :: token.source <:+ utf8 s ∧
        (token.statusFlags = .hasEscape ∨ ∃ w, utf8 s = cesu8 us ++ (w ++ utf8 rest)) := by
  obtain ⟨scan, last, hloop, hsource, hadjust, hflags⟩ := @parseStringLoop_raw
    (initialScan context (utf8 s)) s rest context.isStrict (context.line, context.column + 1) rfl hno us hraw
  have hsuffix := parseStringLoop_suffix hloop
  have hzero : (initialScan context (utf8 s)).rawLengthAdjust = 0 := rfl
  have hlen : scan.source.length ≤ (utf8 s).length := hsuffix.length_le
  have hlength : measuredLength .raw (utf8 s) scan = (cesu8 us).length := by
    rw [measuredLength]
    omega
  rw [lexerParseString_template hstart, hloop]
  dsimp only [Except.bind]
  rw [finishString_eq hsource, hlength]
  by_cases hlimit : parserMaximumStringLength context.cpointer32Bit < (cesu8 us).length
  · exact Or.inl ⟨if_pos hlimit, hlimit⟩
  · rw [hsource] at hsuffix
    refine Or.inr ⟨Nat.le_of_not_lt hlimit, _, if_neg hlimit, rfl, rfl, rfl, hsuffix, ?_⟩
    cases hflags with
    | inl hf => exact Or.inl hf
    | inr hf => exact Or.inr hf.2

/-- Two ends of a text at the same place come after the same byte. -/
theorem last_eq {a b : Byte} {r t : List Byte} (ha : a :: r <:+ t) (hb : b :: r <:+ t) : a = b := by
  have heq := (List.suffix_of_suffix_length_le ha hb (Nat.le_refl _)).eq_of_length rfl
  cases heq
  rfl

/-- What the pass in cooked mode leaves behind. -/
theorem lexerParseString_cooked {q : Byte} {delimiter : Point} (hq : Ends q delimiter)
    {start : LineCounter × LineCounter} {scan : Scan}
    (hloop : parseStringLoop start context.isStrict .noOpts q (initialScan context (utf8 s)) = .ok scan)
    (hfinish : finishString context .noOpts q (utf8 s) scan = .ok token) :
    ∃ es rest, elements delimiter s = some (es, rest) ∧ token.charP = utf8 s ∧ token.source = utf8 rest ∧
      token.length = (cesu8 (es.flatMap Element.units)).length ∧ token.last :: token.source <:+ utf8 s ∧
      (token.statusFlags = .hasEscape ∨ ∃ w, utf8 s = cesu8 (es.flatMap Element.units) ++ (w ++ utf8 rest)) := by
  obtain ⟨es, last, rest, hes, hsource, hlength, hflags, -⟩ := parseStringLoop_cooked hq rfl hloop
  have hsuffix := parseStringLoop_suffix hloop
  rw [finishString_eq hsource] at hfinish
  rcases ite_eq_iff.mp hfinish with ⟨-, hfinish⟩ | ⟨-, hfinish⟩
  · cases hfinish
  cases hfinish
  rw [hsource] at hsuffix
  refine ⟨es, rest, hes, rfl, rfl, ?_, hsuffix, ?_⟩
  · dsimp only [measuredLength]
    rw [hlength]
    exact Nat.zero_add _
  · cases hflags with
    | inl hf => exact Or.inl hf
    | inr hf => exact Or.inr hf.2

/-- Both ways agree just when no opening is escaped and the raw value is not too long. -/
theorem raw_agrees_iff (hstart : StartsTemplate context s) (hcooked : lexerParseString context .noOpts = .ok token) :
    RawAgrees context token ↔ hasEscapedOpening s = false ∧ RawFits context s := by
  rw [lexerParseString_template hstart] at hcooked
  obtain ⟨scan, hloop, hfinish⟩ := Outcome.bind_eq_ok hcooked
  obtain ⟨es, rest, hes, -, hsource, -, hsuffix, -⟩ := lexerParseString_cooked ends_accent hloop hfinish
  obtain ⟨r, hraw, hr⟩ := Option.map_eq_some_iff.mp (rawEnd_elements (show IsTemplate accent from rfl) hes)
  obtain ⟨us, rest'⟩ := r
  cases hr
  constructor
  · intro hagrees
    obtain ⟨token', htoken', hsource', -⟩ := hagrees
    cases hno : hasEscapedOpening s with
    | true =>
      exfalso
      obtain ⟨scan', tail, hloop', hsource1, hshort⟩ := @parseStringLoop_opening
        (initialScan context (utf8 s)) s context.isStrict (context.line, context.column + 1) rfl hno
      rw [lexerParseString_template hstart, hloop'] at htoken'
      dsimp only [Except.bind] at htoken'
      rw [finishString_eq hsource1] at htoken'
      rcases ite_eq_iff.mp htoken' with ⟨-, htoken'⟩ | ⟨-, htoken'⟩
      · cases htoken'
      cases htoken'
      dsimp only at hsource'
      have hsame : tail = rest' := utf8_inj (hsource'.trans hsource)
      have hlt := hshort _ _ hraw
      rw [hsame] at hlt
      omega
    | false =>
      refine ⟨rfl, ?_⟩
      intro us' rest' hraw'
      rw [hraw] at hraw'
      cases hraw'
      cases lexerParseString_raw hstart hno hraw with
      | inl hlong =>
        rw [hlong.1] at htoken'
        cases htoken'
      | inr hfits => exact hfits.1
  · intro h
    obtain ⟨hno, hfits⟩ := h
    cases lexerParseString_raw hstart hno hraw with
    | inl hlong =>
      have := hfits _ _ hraw
      omega
    | inr hok =>
      obtain ⟨-, token', htoken', -, hsource', -, hsuffix', -⟩ := hok
      refine ⟨token', htoken', hsource'.trans hsource.symm, ?_⟩
      rw [hsource'] at hsuffix'
      rw [hsource] at hsuffix
      exact last_eq hsuffix' hsuffix

end

/-- A parser context at the start of a template. -/
def templateContext (text : List Point) : ParserContext where
  source := 0x60#8 :: utf8 text
  line := 1
  column := 1
  isStrict := false
  cpointer32Bit := false

/-- What a pass leaves behind of a template on one line. -/
def templateToken (text : List Point) (length : Nat) (rest : List Byte) (column : LineCounter) : Token where
  type := .templateLiteral
  charP := utf8 text
  length := length
  statusFlags := .hasEscape
  source := rest
  last := 0x60#8
  line := 1
  column := column
  has4ByteMarker := false

theorem lexerParseString_cooked_accent : lexerParseString (templateContext [0x5c, 0x60, 0x60]) .noOpts =
    .ok (templateToken [0x5c, 0x60, 0x60] 1 [] 5) := by
  have h1 : parseStringRound (1, 1 + 1) false .noOpts 0x60#8
      (initialScan (templateContext [0x5c, 0x60, 0x60]) [0x5c#8, 0x60#8, 0x60#8]) =
        .ok (.next ⟨[0x60#8], 1, 4, 1, 0, .hasEscape, false⟩) := by decide
  have h2 : parseStringRound (1, 1 + 1) false .noOpts 0x60#8 ⟨[0x60#8], 1, 4, 1, 0, .hasEscape, false⟩ =
      .ok (.done ⟨[0x60#8], 1, 4, 1, 0, .hasEscape, false⟩) := by decide
  rw [lexerParseString_template (Or.inl rfl)]
  show ((parseStringLoop (1, 1 + 1) false .noOpts 0x60#8
    (initialScan (templateContext [0x5c, 0x60, 0x60]) [0x5c#8, 0x60#8, 0x60#8])).bind _) = _
  rw [parseStringLoop_eq, h1]
  dsimp only
  rw [parseStringLoop_eq, h2]
  rfl

theorem raw_agrees_accent : RawAgrees (templateContext [0x5c, 0x60, 0x60]) (templateToken [0x5c, 0x60, 0x60] 1 [] 5) := by
  refine (raw_agrees_iff (Or.inl rfl) lexerParseString_cooked_accent).mpr ⟨by decide, ?_⟩
  intro us rest hraw
  rw [show raw [0x5c, 0x60, 0x60] = some ([0x5c#16, 0x60#16], []) by decide] at hraw
  cases hraw
  decide

/-- The pass in cooked mode takes an escaped opening for two characters; in raw mode it ends there. -/
theorem raw_disagrees : ∃ (context : ParserContext) (s : List Point) (token : Token), StartsTemplate context s ∧
    lexerParseString context .noOpts = .ok token ∧ ¬RawAgrees context token := by
  have h1 : parseStringRound (1, 1 + 1) false .noOpts 0x60#8
      (initialScan (templateContext [0x5c, 0x24, 0x7b, 0x60]) [0x5c#8, 0x24#8, 0x7b#8, 0x60#8]) =
        .ok (.next ⟨[0x7b#8, 0x60#8], 1, 4, 1, 0, .hasEscape, false⟩) := by decide
  have h2 : parseStringRound (1, 1 + 1) false .noOpts 0x60#8 ⟨[0x7b#8, 0x60#8], 1, 4, 1, 0, .hasEscape, false⟩ =
      .ok (.next ⟨[0x60#8], 1, 5, 2, 0, .hasEscape, false⟩) := by decide
  have h3 : parseStringRound (1, 1 + 1) false .noOpts 0x60#8 ⟨[0x60#8], 1, 5, 2, 0, .hasEscape, false⟩ =
      .ok (.done ⟨[0x60#8], 1, 5, 2, 0, .hasEscape, false⟩) := by decide
  have h4 : parseStringRound (1, 1 + 1) false .raw 0x60#8
      (initialScan (templateContext [0x5c, 0x24, 0x7b, 0x60]) [0x5c#8, 0x24#8, 0x7b#8, 0x60#8]) =
        .ok (.next ⟨[0x24#8, 0x7b#8, 0x60#8], 1, 3, 0, 0, .hasEscape, false⟩) := by decide
  have h5 : parseStringRound (1, 1 + 1) false .raw 0x60#8
      ⟨[0x24#8, 0x7b#8, 0x60#8], 1, 3, 0, 0, .hasEscape, false⟩ =
        .ok (.done ⟨[0x7b#8, 0x60#8], 1, 3, 0, -1, .hasEscape, false⟩) := by decide
  refine ⟨templateContext [0x5c, 0x24, 0x7b, 0x60], [0x5c, 0x24, 0x7b, 0x60],
    templateToken [0x5c, 0x24, 0x7b, 0x60] 2 [] 6, Or.inl rfl, ?_, ?_⟩
  · rw [lexerParseString_template (Or.inl rfl)]
    show ((parseStringLoop (1, 1 + 1) false .noOpts 0x60#8
      (initialScan (templateContext [0x5c, 0x24, 0x7b, 0x60]) [0x5c#8, 0x24#8, 0x7b#8, 0x60#8])).bind _) = _
    rw [parseStringLoop_eq, h1]
    dsimp only
    rw [parseStringLoop_eq, h2]
    dsimp only
    rw [parseStringLoop_eq, h3]
    rfl
  · intro hagrees
    obtain ⟨token', htoken', hsource, -⟩ := hagrees
    rw [lexerParseString_template (s := [0x5c, 0x24, 0x7b, 0x60]) (Or.inl rfl)] at htoken'
    have hloop : parseStringLoop (1, 1 + 1) false .raw 0x60#8
        (initialScan (templateContext [0x5c, 0x24, 0x7b, 0x60]) (utf8 [0x5c, 0x24, 0x7b, 0x60])) =
          .ok ⟨[0x7b#8, 0x60#8], 1, 3, 0, -1, .hasEscape, false⟩ := by
      show parseStringLoop (1, 1 + 1) false .raw 0x60#8
        (initialScan (templateContext [0x5c, 0x24, 0x7b, 0x60]) [0x5c#8, 0x24#8, 0x7b#8, 0x60#8]) = _
      rw [parseStringLoop_eq, h4]
      dsimp only
      rw [parseStringLoop_eq, h5]
    have hfinish : finishString (templateContext [0x5c, 0x24, 0x7b, 0x60]) .raw 0x60#8 (utf8 [0x5c, 0x24, 0x7b, 0x60])
        ⟨[0x7b#8, 0x60#8], 1, 3, 0, -1, .hasEscape, false⟩ = .ok token' := by
      rw [← htoken']
      show _ = (parseStringLoop (1, 1 + 1) false .raw 0x60#8 _).bind _
      rw [hloop]
      rfl
    cases hfinish
    cases hsource

end Lexer
end JJS
