import JJS.Regexp.Reads
import JJS.Regexp.Tree

/-!
# JJS.Regexp.Count

The parser opens as many capturing groups as the scanner finds: what is counted already and what the scanner finds in the
rest of the pattern stay the same together, over classes, groups and alternatives (`treeLoop_reads`). The steps that the
parser is given are enough (`treeLoop_steps`).
-/

namespace JJS
namespace Regexp

open Utf8 Lit Strings Outcome

/-! ## Character classes -/

/-- In a class the scanner goes over everything but escapes and the end of the class. -/
theorem scanUnits_true {u : CodeUnit} (hesc : u ≠ 0x5c#16) (hclose : u ≠ 0x5d#16) (us : List CodeUnit) :
    scanUnits true (u :: us) = scanUnits true us := by
  by_cases hopen : u = 0x5b#16
  · rw [hopen, scanUnits_open]
  by_cases hparen : u = 0x28#16
  · rw [hparen]
    cases us with
    | nil => rfl
    | cons v us =>
      rw [scanUnits_paren]
      simp only [Bool.true_eq_false, and_false, if_false, Nat.add_zero]
  · exact scanUnits_plain ⟨hesc, hopen, hclose, hparen⟩ us

/-- What reading a character or an escape of a class does. -/
structure ClassRead (s : ClassState) (l : Lexer) (cp : CodePoint) (s' : ClassState) (l' : Lexer) : Prop where
  same : l.Same l'
  scans : Scans 0 true true l.inputCurr l'.inputCurr
  shorter : l'.inputCurr.length < l.inputCurr.length
  state : CharValue l.flags.unicode cp ∧ s' = s ∨
    cp = reInvalidCp ∧ ∃ e : ClassEscape, s' = { s with foundEscapes := e :: s.foundEscapes }

section

variable {l l' : Lexer} {s s' : ClassState} {cp : CodePoint} {us : List CodeUnit}

theorem controlDigit_skips {unicode : Bool} {e : Byte} {tail tail' : List Byte} {value : CodePoint}
    (h : classAtom.controlDigit unicode e tail = some (value, tail')) :
    e = 0x63#8 ∧ Skips tail tail' ∧ value.toNat < 0x10000 := by
  rw [classAtom.controlDigit.eq_def] at h
  cases tail with
  | nil => cases h
  | cons d tail =>
    dsimp only at h
    rcases ite_eq_iff.mp h with ⟨⟨-, he, hd⟩, h⟩ | ⟨-, h⟩
    · cases h
      refine ⟨he, ?_, ?_⟩
      · rcases hd with hd | hd
        · exact Skips.refl.cons fun _ _ => Scans.decimalDigit hd
        · rw [hd]
          exact Skips.byte (by decide)
      · rw [BitVec.toNat_ofNat]
        omega
    · cases h

/-- A character of a class that stands for itself. -/
theorem ClassRead.unit {u : CodeUnit} (hl : l.inputCurr = cesu8 (u :: us)) (hesc : u ≠ 0x5c#16) (hclose : u ≠ 0x5d#16) :
    ClassRead s l (u.setWidth 32) s { l with inputCurr := cesu8 us } := by
  refine ⟨⟨rfl, rfl, rfl⟩, ?_, ?_, Or.inl ⟨CharValue.unit _ u, rfl⟩⟩
  · rw [hl]
    exact Scans.unit (scanUnits_true hesc hclose us)
  · rw [hl]
    exact length_cesu8_cons u us

theorem classAtom_reads {u : CodeUnit} (hl : l.inputCurr = cesu8 (u :: us)) (hclose : u ≠ 0x5d#16)
    (h : classAtom s l = .ok (cp, s', l')) : ClassRead s l cp s' l' := by
  obtain ⟨b, t, hcurr⟩ : ∃ b t, l.inputCurr = b :: t := by
    rw [hl, cesu8_cons]
    obtain ⟨e, t, he, _, _⟩ := encode_bytes u
    exact ⟨e, t ++ cesu8 us, by rw [he, List.cons_append]⟩
  rw [classAtom.eq_def, hcurr] at h
  dsimp only at h
  rcases ite_eq_iff.mp h with ⟨hb, h⟩ | ⟨hb, h⟩
  · rw [hb] at hcurr
    obtain ⟨us', hus', ht⟩ := cesu8_eq_cons (by decide) (hcurr.symm.trans hl)
    obtain ⟨-, rfl⟩ := List.cons.inj hus'
    cases t with
    | nil => cases h
    | cons e tail =>
      dsimp only at h
      -- an ASCII character that is escaped, and what is behind it
      have hescape : ∀ {r : List Byte} {value : CodePoint}, e.toNat < 0x80 → Skips tail r → value.toNat < 0x10000 →
          ClassRead s l value s { l with inputCurr := r } := by
        intro r value he hr hvalue
        refine ⟨⟨rfl, rfl, rfl⟩, ?_, ?_, Or.inl ⟨CharValue.of_lt hvalue, rfl⟩⟩
        · rw [hcurr]
          exact (Scans.escape he).trans (hr.1 true)
        · rw [hcurr, List.length_cons, List.length_cons]
          exact Nat.lt_succ_of_le (Nat.le_succ_of_le hr.2)
      rcases ite_eq_iff.mp h with ⟨he, h⟩ | ⟨-, h⟩
      · cases h
        exact hescape (by rw [he]; decide) Skips.refl (by decide)
      rcases ite_eq_iff.mp h with ⟨he, h⟩ | ⟨-, h⟩
      · cases h
        exact hescape (by rw [he]; decide) Skips.refl (by decide)
      cases hdigit : classAtom.controlDigit l.flags.unicode e tail with
      | some p =>
        rw [hdigit] at h
        cases h
        obtain ⟨he, hskips, hvalue⟩ := controlDigit_skips hdigit
        exact hescape (by rw [he]; decide) hskips hvalue
      | none =>
        rw [hdigit] at h
        obtain ⟨m, hread, h⟩ := bind_eq_ok h
        cases us with
        | nil => cases ht
        | cons v us =>
          have hm := reParseCharEscape_reads (l := { l with inputCurr := e :: tail }) ht hread
          have hsame : l.Same m := ⟨hm.same.flags, hm.same.inputStart, hm.same.groupsCount⟩
          have hscans : Scans 0 true true l.inputCurr m.inputCurr := by
            intro vs hvs
            rw [hl] at hvs
            obtain ⟨us'', hus'', hscan⟩ := hm.scans true us rfl
            obtain ⟨rfl, -⟩ := List.cons.inj hus'
            refine ⟨us'', hus'', ?_⟩
            rw [← cesu8_inj hvs, ← hscan]
            exact scanUnits_escape v us
          have hshort : m.inputCurr.length < l.inputCurr.length := by
            have h1 := length_cesu8_cons v us
            have h2 := length_cesu8_cons u (v :: us)
            have h3 := hm.length
            rw [hl]
            omega
          rcases ite_eq_iff.mp h with ⟨-, h⟩ | ⟨-, h⟩
          · split at h
            · rename_i escape _
              cases h
              exact ⟨hsame, hscans, hshort, Or.inr ⟨rfl, escape, rfl⟩⟩
            · cases h
          · cases h
            exact ⟨hsame, hscans, hshort, Or.inl ⟨hm.value, rfl⟩⟩
  · have hesc : u ≠ 0x5c#16 := by
      intro hu
      rw [hu, cesu8_cons, encode_ascii (by decide), hcurr] at hl
      exact hb (List.cons.inj hl).1
    rcases ite_eq_iff.mp h with ⟨hunicode, h⟩ | ⟨-, h⟩
    · obtain ⟨⟨ch, r⟩, hread, h⟩ := bind_eq_ok h
      obtain ⟨us', hus, rfl⟩ := readInput_cesu8 hread (hcurr.symm.trans hl)
      obtain ⟨rfl, rfl⟩ := List.cons.inj hus
      rcases ite_eq_iff.mp h with ⟨⟨hhigh, -⟩, h⟩ | ⟨-, h⟩
      · obtain ⟨⟨next, r⟩, hread, h⟩ := bind_eq_ok h
        obtain ⟨us', rfl, rfl⟩ := readInput_cesu8 hread rfl
        rcases ite_eq_iff.mp h with ⟨hlow, h⟩ | ⟨-, h⟩
        · cases h
          have hfirst := ClassRead.unit (s := s) hl hesc hclose
          refine ⟨⟨rfl, rfl, rfl⟩, ?_, ?_, Or.inl ⟨hunicode ▸ CharValue.pair hhigh hlow, rfl⟩⟩
          · rw [drop_lowSurrogate hlow]
            exact hfirst.scans.trans (Scans.unit (scanUnits_plain (lowSurrogate_plain hlow) us'))
          · rw [drop_lowSurrogate hlow]
            exact Nat.lt_trans (length_cesu8_cons next us') hfirst.shorter
        · cases h
          exact ClassRead.unit hl hesc hclose
      · cases h
        exact ClassRead.unit hl hesc hclose
    · obtain ⟨⟨ch, r⟩, hread, h⟩ := bind_eq_ok h
      obtain ⟨us', hus, rfl⟩ := readInput_cesu8 hread (hcurr.symm.trans hl)
      obtain ⟨rfl, rfl⟩ := List.cons.inj hus
      cases h
      exact ClassRead.unit hl hesc hclose

/-- What reading a part of the pattern does to the lexer: the groups that the scanner finds in it. -/
structure Passed (n : Nat) (front behind : Bool) (l l' : Lexer) : Prop where
  flags : l'.flags = l.flags
  inputStart : l'.inputStart = l.inputStart
  counted : l.Counted → l'.Counted
  scans : Scans n front behind l.inputCurr l'.inputCurr
  length : l'.inputCurr.length ≤ l.inputCurr.length

namespace Passed

variable {n m : Nat} {a b c : Bool} {l'' : Lexer}

theorem refl : Passed 0 a a l l := ⟨rfl, rfl, fun h => h, Scans.refl, Nat.le_refl _⟩

theorem trans (h : Passed n a b l l') (h' : Passed m b c l' l'') : Passed (m + n) a c l l'' :=
  ⟨h'.flags.trans h.flags, h'.inputStart.trans h.inputStart, fun hl => h'.counted (h.counted hl), h.scans.trans h'.scans,
    Nat.le_trans h'.length h.length⟩

theorem of_same (hsame : l.Same l') (hscans : Scans n a b l.inputCurr l'.inputCurr)
    (hlength : l'.inputCurr.length ≤ l.inputCurr.length) : Passed n a b l l' := by
  refine ⟨hsame.flags, hsame.inputStart, ?_, hscans, hlength⟩
  intro hl k hk
  rw [hsame.groupsCount] at hk
  rw [hsame.inputStart]
  exact hl k hk

/-- What is behind is code units again. -/
theorem cesu8 (h : Passed n a b l l') (hl : l.inputCurr = Utf8.cesu8 us) : ∃ us', l'.inputCurr = Utf8.cesu8 us' := by
  obtain ⟨us', hus', -⟩ := h.scans us hl
  exact ⟨us', hus'⟩

/-- A byte that is gone over. -/
theorem byte {e : Byte} {r : List Byte} (he : e.toNat < 0x5b ∧ e.toNat ≠ 0x28 ∨ 0x5d < e.toNat ∧ e.toNat < 0x80)
    (hr : behindByte e l.inputCurr = some r) : Passed 0 a a l { l with inputCurr := r } := by
  have hskips := Skips.behindByte he hr
  exact of_same ⟨rfl, rfl, rfl⟩ (hskips.1 a) hskips.2

theorem quantifier (h : withQuantifier l = .ok l') : Passed 0 a a l l' := by
  obtain ⟨hsame, hskips, -, -, -⟩ := withQuantifier_reads h
  exact of_same hsame (hskips.1 a) hskips.2

end Passed

theorem ClassRead.passed (h : ClassRead s l cp s' l') : Passed 0 true true l l' :=
  Passed.of_same h.same h.scans (Nat.le_of_lt h.shorter)

theorem cesu8_eq_closing {b : Byte} {rest : List Byte} {u : CodeUnit} (h : b :: rest = cesu8 (u :: us)) (hb : b ≠ 0x5d#8) :
    u ≠ 0x5d#16 := by
  intro hu
  rw [hu, cesu8_cons, encode_ascii (by decide)] at h
  exact hb (List.cons.inj h).1

/-- The start of a range is a character or an escape. -/
def ClassState.Valid (unicode : Bool) (s : ClassState) : Prop := CharValue unicode s.start ∨ s.start = reInvalidCp

/-- The characters are those that a pattern can have, and the ranges are in order. -/
structure ClassContent.Valid (unicode : Bool) (content : ClassContent) : Prop where
  chars : ∀ cp ∈ content.chars, CharValue unicode cp
  ranges : ∀ r ∈ content.ranges, CharValue unicode r.1 ∧ CharValue unicode r.2 ∧ r.1 ≤ r.2

theorem ClassContent.Valid.addValid {unicode : Bool} {content : ClassContent} (h : content.Valid unicode)
    (hcp : CharValue unicode cp ∨ cp = reInvalidCp) : (content.addValid cp).Valid unicode := by
  rw [ClassContent.addValid]
  split
  · exact h
  · rename_i hne
    refine ⟨?_, h.ranges⟩
    intro c hc
    rcases List.mem_cons.mp hc with rfl | hc
    · rcases hcp with hcp | hcp
      · exact hcp
      · exact absurd hcp hne
    · exact h.chars c hc

theorem ClassContent.Valid.addRange {unicode : Bool} {content : ClassContent} (h : content.Valid unicode)
    {start stop : CodePoint} (hr : CharValue unicode start ∧ CharValue unicode stop ∧ start ≤ stop) :
    ClassContent.Valid unicode { content with ranges := content.ranges ++ [(start, stop)] } := by
  refine ⟨h.chars, ?_⟩
  intro r hmem
  rcases List.mem_append.mp hmem with hmem | hmem
  · exact h.ranges r hmem
  · rw [List.mem_singleton.mp hmem]
    exact hr

theorem ClassContent.addValid_inverted (content : ClassContent) (cp : CodePoint) :
    (content.addValid cp).inverted = content.inverted := by
  rw [ClassContent.addValid]
  split
  · rfl
  · rfl

theorem ClassRead.value (h : ClassRead s l cp s' l') : CharValue l.flags.unicode cp ∨ cp = reInvalidCp := by
  rcases h.state with ⟨hvalue, -⟩ | ⟨hcp, -⟩
  · exact Or.inl hvalue
  · exact Or.inr hcp

theorem ClassRead.start (h : ClassRead s l cp s' l') : s'.start = s.start ∧ s'.isRange = s.isRange := by
  rcases h.state with ⟨-, rfl⟩ | ⟨-, e, rfl⟩
  · exact ⟨rfl, rfl⟩
  · exact ⟨rfl, rfl⟩

/-- The rest of a class, up to its end. -/
theorem treeClassLoop_reads {steps : Nat} {unicode : Bool} {content content' : ClassContent} (hl : l.inputCurr = cesu8 us)
    (hunicode : l.flags.unicode = unicode) (hs : s.Valid unicode) (hcontent : content.Valid unicode)
    (h : treeClassLoop steps s content l = .ok (s', content', l')) :
    Passed 0 true false l l' ∧ content'.Valid unicode ∧ content'.inverted = content.inverted := by
  induction steps generalizing s content l us with
  | zero => cases h
  | succ steps ih =>
    rw [treeClassLoop.eq_def] at h
    dsimp only at h
    have hdash : CharValue unicode 0x2d#32 ∨ 0x2d#32 = reInvalidCp := Or.inl (CharValue.of_lt (by decide))
    cases hcurr : l.inputCurr with
    | nil =>
      rw [hcurr] at h
      cases h
    | cons b rest =>
      rw [hcurr] at h
      dsimp only at h
      rcases ite_eq_iff.mp h with ⟨hb, h⟩ | ⟨hb, h⟩
      · have hend : Passed 0 true false l { l with inputCurr := rest } := by
          rw [hb] at hcurr
          obtain ⟨us', hus', hrest⟩ := cesu8_eq_cons (by decide) (hcurr.symm.trans hl)
          refine Passed.of_same ⟨rfl, rfl, rfl⟩ ?_ ?_
          · rw [hl, hus', hrest]
            exact Scans.unit (scanUnits_close us')
          · rw [hcurr]
            exact Nat.le_succ _
        rcases ite_eq_iff.mp h with ⟨-, h⟩ | ⟨-, h⟩
        · cases h
          refine ⟨hend, (hcontent.addValid hs).addValid hdash, ?_⟩
          rw [ClassContent.addValid_inverted, ClassContent.addValid_inverted]
        · cases h
          exact ⟨hend, hcontent, rfl⟩
      · obtain ⟨⟨current, s₁, l₁⟩, hatom, h⟩ := bind_eq_ok h
        cases us with
        | nil =>
          rw [hl] at hcurr
          cases hcurr
        | cons u us =>
          have hclass := classAtom_reads hl (cesu8_eq_closing (hcurr.symm.trans hl) hb) hatom
          have hread := hclass.passed
          have hvalue := hclass.value
          rw [hunicode] at hvalue
          obtain ⟨us₁, hl₁⟩ := hread.cesu8 hl
          have hunicode₁ : l₁.flags.unicode = unicode := by rw [hread.flags, hunicode]
          have hs₁ : CharValue unicode s₁.start ∨ s₁.start = reInvalidCp := by
            rw [hclass.start.1]
            exact hs
          dsimp only at h
          rcases ite_eq_iff.mp h with ⟨-, h⟩ | ⟨-, h⟩
          · rcases ite_eq_iff.mp h with ⟨hboth, h⟩ | ⟨-, h⟩
            · rcases ite_eq_iff.mp h with ⟨-, h⟩ | ⟨horder, h⟩
              · cases h
              · have hrange := hcontent.addRange ⟨hs₁.resolve_right hboth.1, hvalue.resolve_right hboth.2,
                  BitVec.not_lt.mp horder⟩
                obtain ⟨hrest, hvalid, hinverted⟩ := ih (s := { s₁ with isRange := false }) hl₁ hunicode₁ hs₁ hrange h
                exact ⟨hread.trans hrest, hvalid, hinverted⟩
            · rcases ite_eq_iff.mp h with ⟨-, h⟩ | ⟨-, h⟩
              · cases h
              · have hother : CharValue unicode (if s₁.start = reInvalidCp then current else s₁.start) ∨
                    (if s₁.start = reInvalidCp then current else s₁.start) = reInvalidCp := by
                  split
                  · exact hvalue
                  · exact hs₁
                obtain ⟨hrest, hvalid, hinverted⟩ :=
                  ih (s := { s₁ with isRange := false }) hl₁ hunicode₁ hs₁ ((hcontent.addValid hother).addValid hdash) h
                rw [ClassContent.addValid_inverted, ClassContent.addValid_inverted] at hinverted
                exact ⟨hread.trans hrest, hvalid, hinverted⟩
          · cases hdash : behindByte 0x2d#8 l₁.inputCurr with
            | some r =>
              rw [hdash] at h
              have hbyte : Passed 0 true true l₁ { l₁ with inputCurr := r } := Passed.byte (by decide) hdash
              obtain ⟨us₂, hl₂⟩ := hbyte.cesu8 hl₁
              obtain ⟨hrest, hvalid, hinverted⟩ := @ih { l₁ with inputCurr := r }
                { s₁ with start := current, isRange := true } us₂ content hl₂ hunicode₁ hvalue hcontent h
              exact ⟨(hread.trans hbyte).trans hrest, hvalid, hinverted⟩
            | none =>
              rw [hdash] at h
              obtain ⟨hrest, hvalid, hinverted⟩ := ih hl₁ hunicode₁ hs₁ (hcontent.addValid hvalue) h
              rw [ClassContent.addValid_inverted] at hinverted
              exact ⟨hread.trans hrest, hvalid, hinverted⟩

theorem treeClass_reads {content : ClassContent} (hl : l.inputCurr = cesu8 us)
    (h : treeClass l = .ok (content, l')) : Passed 0 true false l l' ∧ content.Valid l.flags.unicode := by
  obtain ⟨⟨s, content, l₁⟩, hloop, h⟩ := bind_eq_ok h
  cases h
  have hstart : ClassState.Valid l.flags.unicode initialClassState := Or.inr rfl
  cases hcaret : behindByte 0x5e#8 l.inputCurr with
  | none =>
    rw [hcaret] at hloop
    obtain ⟨hpassed, hvalid, -⟩ := treeClassLoop_reads hl rfl hstart ⟨fun _ h => (List.not_mem_nil h).elim,
      fun _ h => (List.not_mem_nil h).elim⟩ hloop
    exact ⟨hpassed, hvalid.chars, hvalid.ranges⟩
  | some r =>
    rw [hcaret] at hloop
    have hbyte : Passed 0 true true l { l with inputCurr := r } := Passed.byte (by decide) hcaret
    obtain ⟨us₁, hl₁⟩ := hbyte.cesu8 hl
    obtain ⟨hpassed, hvalid, -⟩ := treeClassLoop_reads hl₁ rfl hstart ⟨fun _ h => (List.not_mem_nil h).elim,
      fun _ h => (List.not_mem_nil h).elim⟩ hloop
    exact ⟨hbyte.trans hpassed, hvalid.chars, hvalid.ranges⟩

/-! ## Alternatives -/

theorem Advances.passed (h : Advances l l') :
    Passed (if l'.token.type = .startCaptureGroup then 1 else 0) false (decide (l'.token.type = .charClass)) l l' := by
  refine ⟨h.flags, h.inputStart, h.counted, h.scans, ?_⟩
  by_cases heof : l'.token.type = .eof
  · rw [h.eof heof]
    exact Nat.zero_le _
  · exact Nat.le_of_lt (h.shorter heof)

variable {tables : CaseTables}

theorem treeAtom_reads {p p' : TreeParser} {term : Term} (hp : p.inputCurr = cesu8 us)
    (h : treeAtom tables p = .ok (term, p')) :
    Passed 0 (decide (p.token.type = .charClass)) false p.toLexer p'.toLexer ∧ p'.capturesCount = p.capturesCount := by
  rw [treeAtom] at h
  split at h
  case h_6 htype =>
    rw [htype]
    split at h
    · cases h
      exact ⟨Passed.refl, rfl⟩
    · cases h
      exact ⟨Passed.refl, rfl⟩
  case h_7 htype =>
    rw [htype]
    split at h
    · cases h
      exact ⟨Passed.refl, rfl⟩
    · cases h
  case h_8 htype =>
    rw [htype]
    obtain ⟨⟨content, l₁⟩, hclass, h⟩ := bind_eq_ok h
    dsimp only at h
    split at h
    · obtain ⟨l₂, hquantifier, h⟩ := bind_eq_ok h
      cases h
      exact ⟨(treeClass_reads hp hclass).1.trans (Passed.quantifier hquantifier), rfl⟩
    · cases h
  case h_9 hclass =>
    cases h
    rw [decide_eq_false hclass]
    exact ⟨Passed.refl, rfl⟩
  all_goals
    rename_i htype
    rw [htype]
    cases h
    exact ⟨Passed.refl, rfl⟩

theorem lookaheadQuantifier_passed (h : lookaheadQuantifier l = .ok l') : Passed 0 false false l l' := by
  rw [lookaheadQuantifier] at h
  split at h
  · cases h
    exact Passed.of_same ⟨rfl, rfl, rfl⟩ Scans.refl (Nat.le_refl _)
  · exact Passed.quantifier h

/-- The groups that are opened in a part of the pattern are those that the scanner finds in it. -/
def Opens (p p' : TreeParser) : Prop :=
  ∃ n, Passed n false false p.toLexer p'.toLexer ∧ p'.capturesCount = p.capturesCount + n

theorem Opens.refl {p : TreeParser} : Opens p p := ⟨0, Passed.refl, rfl⟩

theorem Opens.trans {p p' p'' : TreeParser} (h : Opens p p') (h' : Opens p' p'') : Opens p p'' := by
  obtain ⟨n, hn, hcount⟩ := h
  obtain ⟨m, hm, hcount'⟩ := h'
  exact ⟨m + n, hn.trans hm, by omega⟩

theorem treeLoop_reads {steps : Nat} {expectEof : Bool} {done alts : List (List Term)} {terms : List Term}
    {p p' : TreeParser} (hp : p.inputCurr = cesu8 us) (h : treeLoop tables steps expectEof done terms p = .ok (alts, p')) :
    Opens p p' ∧ (expectEof = true → p'.inputCurr = []) := by
  induction steps generalizing expectEof done terms p p' alts us with
  | zero => cases h
  | succ steps ih =>
    obtain ⟨l, htoken, h⟩ := bind_eq_ok h
    have hadvance := (reParseNextToken_advances hp htoken)
    have hpassed := hadvance.passed
    obtain ⟨us₁, hl⟩ := hpassed.cesu8 hp
    dsimp only at h
    -- a token that opens no capturing group and no class
    have hplain : l.token.type ≠ .startCaptureGroup → l.token.type ≠ .charClass →
        Opens p { p with toLexer := l } := by
      intro hcapture hclass
      rw [if_neg hcapture, decide_eq_false hclass] at hpassed
      exact ⟨0, hpassed, rfl⟩
    split at h
    case h_1 htype =>
      replace htype : l.token.type = .startCaptureGroup := htype
      rw [htype] at hpassed
      obtain ⟨⟨body, p₁⟩, hbody, h⟩ := bind_eq_ok h
      obtain ⟨⟨n, hinner, hcount⟩, -⟩ := ih (p := { p with toLexer := l, capturesCount := p.capturesCount + 1 }) hl hbody
      obtain ⟨us₂, hp₁⟩ := hinner.cesu8 hl
      obtain ⟨l₂, hquantifier, h⟩ := bind_eq_ok h
      have hbehind := hinner.trans (Passed.quantifier hquantifier)
      obtain ⟨us₃, hl₂⟩ := hbehind.cesu8 hl
      obtain ⟨hrest, heof⟩ := ih (p := { p₁ with toLexer := l₂ }) hl₂ h
      refine ⟨Opens.trans ⟨_, hpassed.trans hbehind, ?_⟩ hrest, heof⟩
      show p₁.capturesCount = _
      rw [hcount]
      show p.capturesCount + 1 + n = p.capturesCount + (0 + n + if TokenType.startCaptureGroup = .startCaptureGroup then 1 else 0)
      rw [if_pos rfl]
      omega
    case h_2 htype =>
      replace htype : l.token.type = .startNonCaptureGroup := htype
      obtain ⟨⟨body, p₁⟩, hbody, h⟩ := bind_eq_ok h
      obtain ⟨hinner, -⟩ := ih (p := { p with toLexer := l, nonCapturesCount := p.nonCapturesCount + 1 }) hl hbody
      obtain ⟨n, hn, hcount⟩ := hinner
      obtain ⟨l₂, hquantifier, h⟩ := bind_eq_ok h
      have hbehind := hn.trans (Passed.quantifier hquantifier)
      obtain ⟨us₃, hl₂⟩ := hbehind.cesu8 hl
      obtain ⟨hrest, heof⟩ := ih (p := { p₁ with toLexer := l₂ }) hl₂ h
      have hopen := hplain (by rw [htype]; decide) (by rw [htype]; decide)
      refine ⟨hopen.trans (Opens.trans ⟨_, hbehind, ?_⟩ hrest), heof⟩
      show p₁.capturesCount = p.capturesCount + (0 + n)
      rw [hcount, Nat.zero_add]
    case h_3 htype =>
      replace htype : l.token.type = .assertLookahead := htype
      obtain ⟨⟨body, p₁⟩, hbody, h⟩ := bind_eq_ok h
      obtain ⟨hinner, -⟩ := ih (p := { p with toLexer := l }) hl hbody
      obtain ⟨n, hn, hcount⟩ := hinner
      obtain ⟨l₂, hquantifier, h⟩ := bind_eq_ok h
      have hbehind := hn.trans (lookaheadQuantifier_passed hquantifier)
      obtain ⟨us₃, hl₂⟩ := hbehind.cesu8 hl
      obtain ⟨hrest, heof⟩ := ih (p := { p₁ with toLexer := l₂ }) hl₂ h
      have hopen := hplain (by rw [htype]; decide) (by rw [htype]; decide)
      refine ⟨hopen.trans (Opens.trans ⟨_, hbehind, ?_⟩ hrest), heof⟩
      show p₁.capturesCount = p.capturesCount + (0 + n)
      rw [hcount, Nat.zero_add]
    case h_4 htype =>
      replace htype : l.token.type = .alternative := htype
      obtain ⟨hrest, heof⟩ := ih (p := { p with toLexer := l }) hl h
      exact ⟨(hplain (by rw [htype]; decide) (by rw [htype]; decide)).trans hrest, heof⟩
    case h_5 htype =>
      replace htype : l.token.type = .endGroup := htype
      rcases ite_eq_iff.mp h with ⟨-, h⟩ | ⟨hexpect, h⟩
      · cases h
      · cases h
        exact ⟨hplain (by rw [htype]; decide) (by rw [htype]; decide), fun he => absurd he hexpect⟩
    case h_6 htype =>
      replace htype : l.token.type = .eof := htype
      rcases ite_eq_iff.mp h with ⟨-, h⟩ | ⟨-, h⟩
      · cases h
      · cases h
        exact ⟨hplain (by rw [htype]; decide) (by rw [htype]; decide), fun _ => hadvance.eof htype⟩
    case h_7 hcapture _ _ _ _ _ =>
      replace hcapture : l.token.type ≠ .startCaptureGroup := hcapture
      rw [if_neg hcapture] at hpassed
      obtain ⟨⟨term, p₁⟩, hatom, h⟩ := bind_eq_ok h
      obtain ⟨hread, hcount⟩ := treeAtom_reads (p := { p with toLexer := l }) hl hatom
      obtain ⟨us₂, hp₁⟩ := hread.cesu8 hl
      obtain ⟨hrest, heof⟩ := ih hp₁ h
      exact ⟨Opens.trans ⟨0, hpassed.trans hread, hcount⟩ hrest, heof⟩

end

end Regexp
end JJS
