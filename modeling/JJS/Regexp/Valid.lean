import JJS.Regexp.Layout

/-!
# JJS.Regexp.Valid

What holds of the tree of every pattern: its characters are read back as they were stored, its backreferences and the
captures of its groups are in the table, and no two groups have the same number.
-/

namespace JJS
namespace Regexp

open Utf8 Lit Strings Outcome

/-! ## Characters -/

/-- The conversion of a code unit is a code unit, or `LIT_MULTIPLE_CU`. -/
def CaseTables.OfUnits (tables : CaseTables) : Prop :=
  ∀ ch : CodePoint, ch.toNat < 0x10000 → tables.upper ch = litMultipleCu ∨ (tables.upper ch).toNat < 0x10000

theorem asciiTables_ofUnits : asciiTables.OfUnits := by
  intro ch hch
  exact Or.inr hch

/-- A character that is read back as it was stored. -/
def IsStored (unicode : Bool) (cp : CodePoint) : Prop := storedChar unicode cp = cp

theorem IsStored.of_lt {unicode : Bool} {cp : CodePoint} (h : unicode = false → cp.toNat < 0x10000) :
    IsStored unicode cp := by
  cases unicode with
  | true => rfl
  | false =>
    have hlt := h rfl
    rw [IsStored, storedChar, if_neg Bool.false_ne_true]
    apply BitVec.eq_of_toNat_eq
    rw [BitVec.toNat_setWidth, BitVec.toNat_setWidth]
    omega

/-- Canonicalised characters are read back as they were stored. -/
theorem canonicalize_stored {tables : CaseTables} (htables : tables.OfUnits) {flags : Flags} {cp : CodePoint}
    (h : CharValue flags.unicode cp) : IsStored flags.unicode (ecmaRegexpCanonicalize tables cp flags) := by
  apply IsStored.of_lt
  intro hunicode
  rw [CharValue, hunicode, if_neg Bool.false_ne_true] at h
  rw [ecmaRegexpCanonicalize]
  split
  · rw [ecmaRegexpCanonicalizeChar, hunicode, if_neg Bool.false_ne_true]
    dsimp only
    by_cases hascii : cp ≤ 0x7f#32
    · rw [if_pos (Or.inl hascii), litCharToUpperCase, if_pos hascii]
      by_cases hletter : 0x61#32 ≤ cp ∧ cp ≤ 0x7a#32
      · have hle : (0x61#32 - 0x41#32 : CodePoint) ≤ cp := BitVec.le_trans (by decide) hletter.1
        rw [if_pos hletter, BitVec.toNat_sub_of_le hle]
        exact Nat.lt_of_le_of_lt (Nat.sub_le _ _) h
      · rw [if_neg hletter]
        exact h
    · rw [litCharToUpperCase, if_neg hascii]
      by_cases hcond : cp ≤ 0x7f#32 ∨ 0x7f#32 < tables.upper cp ∧ tables.upper cp ≠ litMultipleCu
      · rw [if_pos hcond]
        rcases htables cp h with hmultiple | hlt
        · exact absurd hmultiple (hcond.resolve_left hascii).2
        · exact hlt
      · rw [if_neg hcond]
        exact h
  · exact h

/-- The characters of an atom are read back as they were stored. -/
def Atom.Stored (unicode : Bool) : Atom → Prop
  | .byte b => b.toNat < 0x80
  | .char cp => IsStored unicode cp
  | .charClass cls =>
    (∀ c ∈ cls.chars, IsStored unicode c) ∧ ∀ r ∈ cls.ranges, IsStored unicode r.1 ∧ IsStored unicode r.2
  | .classEscape _ => True
  | .period => True

/-! ## Trees -/

section

variable (tables : CaseTables) (unicode : Bool) (captures nonCaptures : Nat)

/-- The captures of a group are in the table. -/
structure Group.Valid (g : Group) : Prop where
  idx_lt : g.idx < if g.isCapturing then captures else nonCaptures
  captures_le : g.captureStart + g.captureCount ≤ captures
  capturing : g.isCapturing = true → g.captureStart = g.idx ∧ 0 < g.captureCount

mutual

/-- The characters, backreferences and captures of a term. -/
def Term.Valid : Term → Prop
  | .assertion _ => True
  | .atom atom _ => tables.OfUnits → atom.Stored unicode
  | .backreference idx => 0 < idx.toNat ∧ idx.toNat < captures
  | .group group body => group.Valid captures nonCaptures ∧ altsValid body
  | .lookahead lookahead body => lookahead.captureStart + lookahead.captureCount ≤ captures ∧ altsValid body

/-- The terms of an alternative. -/
def termsValid : List Term → Prop
  | [] => True
  | term :: terms => Term.Valid term ∧ termsValid terms

/-- The alternatives of a body. -/
def altsValid : List (List Term) → Prop
  | [] => True
  | terms :: alts => termsValid terms ∧ altsValid alts

end

variable {tables} {unicode} {captures nonCaptures}

theorem termsValid_append {terms terms' : List Term} :
    termsValid tables unicode captures nonCaptures (terms ++ terms') ↔
      termsValid tables unicode captures nonCaptures terms ∧ termsValid tables unicode captures nonCaptures terms' := by
  induction terms with
  | nil => simp only [List.nil_append, termsValid, true_and]
  | cons t terms ih => simp only [List.cons_append, termsValid, ih, and_assoc]

theorem altsValid_append {alts alts' : List (List Term)} :
    altsValid tables unicode captures nonCaptures (alts ++ alts') ↔
      altsValid tables unicode captures nonCaptures alts ∧ altsValid tables unicode captures nonCaptures alts' := by
  induction alts with
  | nil => simp only [List.nil_append, altsValid, true_and]
  | cons t alts ih => simp only [List.cons_append, altsValid, ih, and_assoc]

theorem altsValid_single {terms : List Term} :
    altsValid tables unicode captures nonCaptures [terms] ↔ termsValid tables unicode captures nonCaptures terms := by
  simp only [altsValid, and_true]

theorem termsValid_single {term : Term} :
    termsValid tables unicode captures nonCaptures [term] ↔ term.Valid tables unicode captures nonCaptures := by
  simp only [termsValid, and_true]

end

/-- A group in its table: whether it captures, and its number. -/
abbrev GroupId := Bool × Nat

mutual

/-- The groups of a term. -/
def Term.ids : Term → List GroupId
  | .group group body => (group.isCapturing, group.idx) :: altsIds body
  | .lookahead _ body => altsIds body
  | .assertion _ => []
  | .atom _ _ => []
  | .backreference _ => []

/-- The groups of an alternative. -/
def termsIds : List Term → List GroupId
  | [] => []
  | term :: terms => Term.ids term ++ termsIds terms

/-- The groups of a body. -/
def altsIds : List (List Term) → List GroupId
  | [] => []
  | terms :: alts => termsIds terms ++ altsIds alts

end

theorem termsIds_append (terms terms' : List Term) : termsIds (terms ++ terms') = termsIds terms ++ termsIds terms' := by
  induction terms with
  | nil => rfl
  | cons t terms ih => rw [List.cons_append, termsIds, termsIds, ih, List.append_assoc]

theorem altsIds_append (alts alts' : List (List Term)) : altsIds (alts ++ alts') = altsIds alts ++ altsIds alts' := by
  induction alts with
  | nil => rfl
  | cons t alts ih => rw [List.cons_append, altsIds, altsIds, ih, List.append_assoc]

theorem altsIds_single (terms : List Term) : altsIds [terms] = termsIds terms := by
  rw [altsIds, altsIds, List.append_nil]

theorem termsIds_single (term : Term) : termsIds [term] = term.ids := by
  rw [termsIds, termsIds, List.append_nil]

/-- Numbers that are given between two states of the parser, none of them twice. -/
structure Fresh (p p' : TreeParser) (ids : List GroupId) : Prop where
  captures : p.capturesCount ≤ p'.capturesCount
  nonCaptures : p.nonCapturesCount ≤ p'.nonCapturesCount
  capturing : ∀ i, (true, i) ∈ ids → p.capturesCount ≤ i ∧ i < p'.capturesCount
  nonCapturing : ∀ i, (false, i) ∈ ids → p.nonCapturesCount ≤ i ∧ i < p'.nonCapturesCount
  nodup : ids.Nodup

namespace Fresh

variable {p p' p'' : TreeParser} {ids ids' : List GroupId}

theorem refl (hcaptures : p.capturesCount ≤ p'.capturesCount) (hnon : p.nonCapturesCount ≤ p'.nonCapturesCount) :
    Fresh p p' [] :=
  ⟨hcaptures, hnon, fun _ h => (List.not_mem_nil h).elim, fun _ h => (List.not_mem_nil h).elim, List.nodup_nil⟩

theorem append (h : Fresh p p' ids) (h' : Fresh p' p'' ids') : Fresh p p'' (ids ++ ids') := by
  refine ⟨Nat.le_trans h.captures h'.captures, Nat.le_trans h.nonCaptures h'.nonCaptures, ?_, ?_, ?_⟩
  · intro i hi
    rcases List.mem_append.mp hi with hi | hi
    · have := h.capturing i hi
      have := h'.captures
      omega
    · have := h'.capturing i hi
      have := h.captures
      omega
  · intro i hi
    rcases List.mem_append.mp hi with hi | hi
    · have := h.nonCapturing i hi
      have := h'.nonCaptures
      omega
    · have := h'.nonCapturing i hi
      have := h.nonCaptures
      omega
  · rw [List.nodup_append]
    refine ⟨h.nodup, h'.nodup, ?_⟩
    rintro ⟨isCapturing, i⟩ hi _ hj rfl
    cases isCapturing with
    | true =>
      have := h.capturing i hi
      have := h'.capturing i hj
      omega
    | false =>
      have := h.nonCapturing i hi
      have := h'.nonCapturing i hj
      omega

/-- One capturing group. -/
theorem capture (hcaptures : p'.capturesCount = p.capturesCount + 1) (hnon : p'.nonCapturesCount = p.nonCapturesCount) :
    Fresh p p' [(true, p.capturesCount)] := by
  refine ⟨by omega, by omega, ?_, ?_, List.nodup_singleton _⟩
  · intro i hi
    have : i = p.capturesCount := by simpa using hi
    omega
  · intro i hi
    simp at hi

/-- One group that does not capture. -/
theorem nonCapture (hcaptures : p'.capturesCount = p.capturesCount)
    (hnon : p'.nonCapturesCount = p.nonCapturesCount + 1) : Fresh p p' [(false, p.nonCapturesCount)] := by
  refine ⟨by omega, by omega, ?_, ?_, List.nodup_singleton _⟩
  · intro i hi
    simp at hi
  · intro i hi
    have : i = p.nonCapturesCount := by simpa using hi
    omega

end Fresh

/-! ## The tree of a pattern -/

section

variable {tables : CaseTables} {flags : Flags} {p p' : TreeParser}

theorem treeAtom_ids {term : Term} (h : treeAtom tables p = .ok (term, p')) : Fresh p p' term.ids := by
  rw [treeAtom] at h
  split at h
  case h_6 =>
    split at h
    · cases h
      rw [Term.ids, altsIds_single, termsIds_single, Term.ids]
      exact Fresh.nonCapture rfl rfl
    · cases h
      exact Fresh.refl (Nat.le_refl _) (Nat.le_refl _)
  case h_7 =>
    split at h
    · cases h
      exact Fresh.refl (Nat.le_refl _) (Nat.le_refl _)
    · cases h
  case h_8 =>
    obtain ⟨⟨content, l₁⟩, -, h⟩ := bind_eq_ok h
    dsimp only at h
    split at h
    · obtain ⟨l₂, -, h⟩ := bind_eq_ok h
      cases h
      exact Fresh.refl (Nat.le_refl _) (Nat.le_refl _)
    · cases h
  all_goals
    cases h
    exact Fresh.refl (Nat.le_refl _) (Nat.le_refl _)

/-- The groups of what is left of a body that has no code. -/
theorem groupTerms_ids (group : Group) (body : List (List Term)) :
    termsIds (groupTerms group body) = [] ∧ altsIds body = [] ∨
      termsIds (groupTerms group body) = (group.isCapturing, group.idx) :: altsIds body := by
  rw [groupTerms.eq_def]
  split
  · exact Or.inl ⟨rfl, rfl⟩
  · right
    rw [termsIds_single, Term.ids]

theorem treeLoop_ids {steps : Nat} {expectEof : Bool} {done alts : List (List Term)} {terms : List Term}
    (h : treeLoop tables steps expectEof done terms p = .ok (alts, p')) :
    ∃ new, altsIds alts = altsIds done ++ termsIds terms ++ new ∧ Fresh p p' new := by
  induction steps generalizing expectEof done terms p p' alts with
  | zero => cases h
  | succ steps ih =>
    obtain ⟨l, htoken, h⟩ := bind_eq_ok h
    dsimp only at h
    -- the end of a body adds nothing
    have hend : .ok (done ++ [terms], { p with toLexer := l }) = (.ok (alts, p') : Except Failure _) →
        ∃ new, altsIds alts = altsIds done ++ termsIds terms ++ new ∧ Fresh p p' new := by
      intro hok
      cases hok
      refine ⟨[], ?_, Fresh.refl (Nat.le_refl _) (Nat.le_refl _)⟩
      rw [altsIds_append, altsIds_single, List.append_nil]
    -- terms that are added before the rest
    have hadd : ∀ {q : TreeParser} {extra : List Term} {ids : List GroupId}, termsIds extra = ids → Fresh p q ids →
        treeLoop tables steps expectEof done (terms ++ extra) q = .ok (alts, p') →
        ∃ new, altsIds alts = altsIds done ++ termsIds terms ++ new ∧ Fresh p p' new := by
      intro q extra ids hids hfresh hrest
      obtain ⟨new, hnew, hfresh'⟩ := ih hrest
      refine ⟨ids ++ new, ?_, hfresh.append hfresh'⟩
      rw [hnew, termsIds_append, hids, ← List.append_assoc, ← List.append_assoc]
    split at h
    case h_1 =>
      obtain ⟨⟨body, p₁⟩, hbody, h⟩ := bind_eq_ok h
      obtain ⟨l₂, -, h⟩ := bind_eq_ok h
      obtain ⟨new, hnew, hfresh⟩ := ih hbody
      rw [altsIds, termsIds, List.nil_append, List.nil_append] at hnew
      have hgroup : Fresh p { p₁ with toLexer := l₂ } ((true, p.capturesCount) :: altsIds body) := by
        rw [hnew]
        have hself : Fresh p { p with toLexer := l, capturesCount := p.capturesCount + 1 } [(true, p.capturesCount)] :=
          Fresh.capture rfl rfl
        exact hself.append ⟨hfresh.captures, hfresh.nonCaptures, hfresh.capturing, hfresh.nonCapturing, hfresh.nodup⟩
      rcases groupTerms_ids ⟨true, p.capturesCount, p.capturesCount, p₁.capturesCount - p.capturesCount,
        l₂.token.quantifier⟩ body with ⟨hnone, -⟩ | hids
      · rw [groupTerms, termsIds_single, Term.ids] at hnone
        · cases hnone
        · intro hc
          cases hc
      · exact hadd hids hgroup h
    case h_2 =>
      obtain ⟨⟨body, p₁⟩, hbody, h⟩ := bind_eq_ok h
      obtain ⟨l₂, -, h⟩ := bind_eq_ok h
      obtain ⟨new, hnew, hfresh⟩ := ih hbody
      rw [altsIds, termsIds, List.nil_append, List.nil_append] at hnew
      have hgroup : Fresh p { p₁ with toLexer := l₂ } ((false, p.nonCapturesCount) :: altsIds body) := by
        rw [hnew]
        have hself : Fresh p { p with toLexer := l, nonCapturesCount := p.nonCapturesCount + 1 }
            [(false, p.nonCapturesCount)] := Fresh.nonCapture rfl rfl
        exact hself.append ⟨hfresh.captures, hfresh.nonCaptures, hfresh.capturing, hfresh.nonCapturing, hfresh.nodup⟩
      rcases groupTerms_ids ⟨false, p.nonCapturesCount, p.capturesCount, p₁.capturesCount - p.capturesCount,
        l₂.token.quantifier⟩ body with ⟨hnone, -⟩ | hids
      · exact hadd hnone (Fresh.refl hgroup.captures hgroup.nonCaptures) h
      · exact hadd hids hgroup h
    case h_3 =>
      obtain ⟨⟨body, p₁⟩, hbody, h⟩ := bind_eq_ok h
      obtain ⟨l₂, -, h⟩ := bind_eq_ok h
      obtain ⟨new, hnew, hfresh⟩ := ih hbody
      rw [altsIds, termsIds, List.nil_append, List.nil_append] at hnew
      refine @hadd { p₁ with toLexer := l₂ } _ (altsIds body) ?_ ?_ h
      · rw [termsIds_single, Term.ids]
      · rw [hnew]
        exact ⟨hfresh.captures, hfresh.nonCaptures, hfresh.capturing, hfresh.nonCapturing, hfresh.nodup⟩
    case h_4 =>
      obtain ⟨new, hnew, hfresh⟩ := ih h
      refine ⟨new, ?_, ⟨hfresh.captures, hfresh.nonCaptures, hfresh.capturing, hfresh.nonCapturing, hfresh.nodup⟩⟩
      rw [hnew, altsIds_append, altsIds_single, termsIds, List.append_nil]
    case h_5 =>
      rcases ite_eq_iff.mp h with ⟨-, h⟩ | ⟨-, h⟩
      · cases h
      · exact hend h
    case h_6 =>
      rcases ite_eq_iff.mp h with ⟨-, h⟩ | ⟨-, h⟩
      · cases h
      · exact hend h
    case h_7 =>
      obtain ⟨⟨term, p₁⟩, hatom, h⟩ := bind_eq_ok h
      have hfresh := treeAtom_ids hatom
      exact hadd (termsIds_single term)
        ⟨hfresh.captures, hfresh.nonCaptures, hfresh.capturing, hfresh.nonCapturing, hfresh.nodup⟩ h

theorem charAtom_stored (htables : tables.OfUnits) {l : Lexer} (hvalue : CharValue l.flags.unicode l.token.value) :
    (charAtom tables l).Stored l.flags.unicode := by
  rw [charAtom]
  split
  · rename_i hascii
    have hle := BitVec.le_def.mp hascii.1
    show (l.token.value.setWidth 8).toNat < 0x80
    rw [BitVec.toNat_setWidth]
    have h7f : (0x7f#32 : CodePoint).toNat = 0x7f := rfl
    omega
  · exact canonicalize_stored htables hvalue

theorem stored_class (htables : tables.OfUnits) {content : ClassContent} (hvalid : content.Valid flags.unicode)
    {cls : CharClass} (h : content.stored tables flags = some cls) : (Atom.charClass cls).Stored flags.unicode := by
  obtain ⟨-, -, hchars, hranges⟩ := stored_eq h
  constructor
  · rw [hchars]
    intro c hc
    obtain ⟨cp, hcp, rfl⟩ := List.mem_map.mp hc
    exact canonicalize_stored htables (hvalid.chars cp hcp)
  · rw [hranges]
    intro r hr
    obtain ⟨r', hr', rfl⟩ := List.mem_map.mp hr
    obtain ⟨hstart, hstop, -⟩ := hvalid.ranges r' hr'
    exact ⟨canonicalize_stored htables hstart, canonicalize_stored htables hstop⟩

variable {captures nonCaptures : Nat} {us : List CodeUnit}

/-- A group that is made of a token. -/
theorem treeAtom_valid (hflags : p.flags = flags) (hp : p.inputCurr = cesu8 us)
    (hchar : p.token.type = .char → CharValue flags.unicode p.token.value)
    (hother : p.token.type ∉ [.eof, .alternative, .startCaptureGroup, .startNonCaptureGroup, .endGroup, .assertLookahead])
    (hreference : p.token.type = .backreference → 0 < p.token.value.toNat ∧ p.token.value.toNat < captures)
    {term : Term} (h : treeAtom tables p = .ok (term, p')) (hcaptures : p'.capturesCount ≤ captures)
    (hnon : p'.nonCapturesCount ≤ nonCaptures) : term.Valid tables flags.unicode captures nonCaptures := by
  subst hflags
  rw [treeAtom] at h
  split at h
  case h_6 htype =>
    split at h
    · cases h
      rw [Term.Valid, altsValid_single, termsValid_single, Term.Valid]
      exact ⟨⟨hnon, hcaptures, fun hc => absurd hc Bool.false_ne_true⟩, hreference htype⟩
    · cases h
      rw [Term.Valid]
      exact hreference htype
  case h_7 =>
    split at h
    · cases h
      rw [Term.Valid]
      exact fun _ => trivial
    · cases h
  case h_8 =>
    obtain ⟨⟨content, l₁⟩, hclass, h⟩ := bind_eq_ok h
    obtain ⟨hpassed, hvalid⟩ := treeClass_reads hp hclass
    dsimp only at h
    split at h
    · rename_i cls hstored
      obtain ⟨l₂, -, h⟩ := bind_eq_ok h
      cases h
      rw [hpassed.flags] at hstored
      rw [Term.Valid]
      exact fun htables => stored_class htables hvalid hstored
    · cases h
  case h_9 h1 h2 h3 h4 h5 h6 h7 h8 =>
    cases h
    rw [Term.Valid]
    refine fun htables => charAtom_stored htables (hchar ?_)
    cases htype : p.token.type with
    | char => rfl
    | period => exact absurd htype h1
    | assertStart => exact absurd htype h2
    | assertEnd => exact absurd htype h3
    | assertWordBoundary => exact absurd htype h4
    | assertNotWordBoundary => exact absurd htype h5
    | backreference => exact absurd htype h6
    | classEscape => exact absurd htype h7
    | charClass => exact absurd htype h8
    | eof | alternative | startCaptureGroup | startNonCaptureGroup | endGroup | assertLookahead =>
      rw [htype] at hother
      exact absurd (by decide) hother
  case h_1 =>
    cases h
    rw [Term.Valid]
    exact fun _ => trivial
  all_goals
    cases h
    rw [Term.Valid]
    exact trivial

theorem groupTerms_valid {unicode : Bool} {group : Group} {body : List (List Term)}
    (hgroup : group.Valid captures nonCaptures) (hbody : altsValid tables unicode captures nonCaptures body) :
    termsValid tables unicode captures nonCaptures (groupTerms group body) := by
  rw [groupTerms.eq_def]
  split
  · rw [termsValid]
    exact trivial
  · rw [termsValid_single, Term.Valid]
    exact ⟨hgroup, hbody⟩

/-- The tree of a pattern, with at least as many captures as there are groups. -/
theorem treeLoop_valid {steps : Nat} {expectEof : Bool} {done alts : List (List Term)} {terms : List Term}
    (hflags : p.flags = flags) (hp : p.inputCurr = cesu8 us) (hcounted : p.Counted)
    (hgroups : reCountGroups p.inputStart < captures)
    (h : treeLoop tables steps expectEof done terms p = .ok (alts, p')) (hcaptures : p'.capturesCount ≤ captures)
    (hnon : p'.nonCapturesCount ≤ nonCaptures) (hdone : altsValid tables flags.unicode captures nonCaptures done)
    (hterms : termsValid tables flags.unicode captures nonCaptures terms) :
    altsValid tables flags.unicode captures nonCaptures alts := by
  induction steps generalizing expectEof done terms p p' alts us with
  | zero => cases h
  | succ steps ih =>
    obtain ⟨l, htoken, h⟩ := bind_eq_ok h
    have hadvance := reParseNextToken_advances hp htoken
    obtain ⟨us₁, hl⟩ := hadvance.passed.cesu8 hp
    have hflags₁ : l.flags = flags := hadvance.flags.trans hflags
    have hcounted₁ := hadvance.counted hcounted
    have hgroups₁ : reCountGroups l.inputStart < captures := by
      rw [hadvance.inputStart]
      exact hgroups
    have hall : altsValid tables flags.unicode captures nonCaptures (done ++ [terms]) :=
      altsValid_append.mpr ⟨hdone, altsValid_single.mpr hterms⟩
    have hempty : altsValid tables flags.unicode captures nonCaptures [] ∧ termsValid tables flags.unicode captures nonCaptures [] := by
      rw [altsValid, termsValid]
      exact ⟨trivial, trivial⟩
    dsimp only at h
    split at h
    case h_1 =>
      obtain ⟨⟨body, p₁⟩, hbody, h⟩ := bind_eq_ok h
      obtain ⟨⟨n, hread, hcount⟩, -⟩ := treeLoop_reads hl hbody
      obtain ⟨l₂, hquantifier, h⟩ := bind_eq_ok h
      have hpassed := hread.trans (Passed.quantifier hquantifier)
      obtain ⟨us₃, hl₂⟩ := hpassed.cesu8 hl
      obtain ⟨_, -, hfresh⟩ := treeLoop_ids h
      have hle := Nat.le_trans hfresh.captures hcaptures
      have hinner := ih (p := { p with toLexer := l, capturesCount := p.capturesCount + 1 }) hflags₁ hl hcounted₁ hgroups₁
        hbody hle (Nat.le_trans hfresh.nonCaptures hnon) hempty.1 hempty.2
      dsimp only at hcount hle
      refine ih (p := { p₁ with toLexer := l₂ }) (hpassed.flags.trans hflags₁) hl₂ (hpassed.counted hcounted₁)
        (hpassed.inputStart ▸ hgroups₁) h hcaptures hnon hdone
        (termsValid_append.mpr ⟨hterms, groupTerms_valid ⟨?_, ?_, ?_⟩ hinner⟩)
      · show p.capturesCount < captures
        omega
      · show p.capturesCount + (p₁.capturesCount - p.capturesCount) ≤ captures
        omega
      · intro _
        refine ⟨rfl, ?_⟩
        show 0 < p₁.capturesCount - p.capturesCount
        omega
    case h_2 =>
      obtain ⟨⟨body, p₁⟩, hbody, h⟩ := bind_eq_ok h
      obtain ⟨⟨n, hread, hcount⟩, -⟩ := treeLoop_reads hl hbody
      obtain ⟨_, -, hinnerFresh⟩ := treeLoop_ids hbody
      obtain ⟨l₂, hquantifier, h⟩ := bind_eq_ok h
      have hpassed := hread.trans (Passed.quantifier hquantifier)
      obtain ⟨us₃, hl₂⟩ := hpassed.cesu8 hl
      obtain ⟨_, -, hfresh⟩ := treeLoop_ids h
      have hle := Nat.le_trans hfresh.captures hcaptures
      have hle' := Nat.le_trans hinnerFresh.nonCaptures (Nat.le_trans hfresh.nonCaptures hnon)
      have hinner := ih (p := { p with toLexer := l, nonCapturesCount := p.nonCapturesCount + 1 }) hflags₁ hl hcounted₁
        hgroups₁ hbody hle (Nat.le_trans hfresh.nonCaptures hnon) hempty.1 hempty.2
      dsimp only at hcount hle
      refine ih (p := { p₁ with toLexer := l₂ }) (hpassed.flags.trans hflags₁) hl₂ (hpassed.counted hcounted₁)
        (hpassed.inputStart ▸ hgroups₁) h hcaptures hnon hdone
        (termsValid_append.mpr ⟨hterms, groupTerms_valid ⟨?_, ?_, ?_⟩ hinner⟩)
      · exact hle'
      · show p.capturesCount + (p₁.capturesCount - p.capturesCount) ≤ captures
        omega
      · intro hc
        exact absurd hc Bool.false_ne_true
    case h_3 =>
      obtain ⟨⟨body, p₁⟩, hbody, h⟩ := bind_eq_ok h
      obtain ⟨⟨n, hread, hcount⟩, -⟩ := treeLoop_reads hl hbody
      obtain ⟨l₂, hquantifier, h⟩ := bind_eq_ok h
      have hpassed := hread.trans (lookaheadQuantifier_passed hquantifier)
      obtain ⟨us₃, hl₂⟩ := hpassed.cesu8 hl
      obtain ⟨_, -, hfresh⟩ := treeLoop_ids h
      have hle := Nat.le_trans hfresh.captures hcaptures
      have hinner := ih (p := { p with toLexer := l }) hflags₁ hl hcounted₁ hgroups₁ hbody hle
        (Nat.le_trans hfresh.nonCaptures hnon) hempty.1 hempty.2
      dsimp only at hcount hle
      refine ih (p := { p₁ with toLexer := l₂ }) (hpassed.flags.trans hflags₁) hl₂ (hpassed.counted hcounted₁)
        (hpassed.inputStart ▸ hgroups₁) h hcaptures hnon hdone (termsValid_append.mpr ⟨hterms, ?_⟩)
      rw [termsValid_single, Term.Valid]
      refine ⟨?_, hinner⟩
      show p.capturesCount + (p₁.capturesCount - p.capturesCount) ≤ captures
      omega
    case h_4 =>
      exact ih (p := { p with toLexer := l }) hflags₁ hl hcounted₁ hgroups₁ h hcaptures hnon hall hempty.2
    case h_5 =>
      rcases ite_eq_iff.mp h with ⟨-, h⟩ | ⟨-, h⟩
      · cases h
      · cases h
        exact hall
    case h_6 =>
      rcases ite_eq_iff.mp h with ⟨-, h⟩ | ⟨-, h⟩
      · cases h
      · cases h
        exact hall
    case h_7 h1 h2 h3 h4 h5 h6 =>
      obtain ⟨⟨term, p₁⟩, hatom, h⟩ := bind_eq_ok h
      obtain ⟨hread, hcount⟩ := treeAtom_reads (p := { p with toLexer := l }) hl hatom
      obtain ⟨us₂, hp₁⟩ := hread.cesu8 hl
      obtain ⟨_, -, hfresh⟩ := treeLoop_ids h
      have hother : l.token.type ∉
          [.eof, .alternative, .startCaptureGroup, .startNonCaptureGroup, .endGroup, .assertLookahead] := by
        simp only [List.mem_cons, List.not_mem_nil, or_false, not_or]
        exact ⟨h6, h4, h1, h2, h5, h3⟩
      have hreference : l.token.type = .backreference → 0 < l.token.value.toNat ∧ l.token.value.toNat < captures := by
        intro htype
        obtain ⟨hne, hle⟩ := hadvance.backreference hcounted htype
        have hle' := BitVec.le_def.mp hle
        rw [BitVec.toNat_ofNat] at hle'
        refine ⟨?_, ?_⟩
        · have : l.token.value.toNat ≠ 0 := fun h0 => hne (BitVec.eq_of_toNat_eq h0)
          omega
        · have := Nat.mod_le (reCountGroups p.inputStart) (2 ^ 32)
          omega
      have hvalid := treeAtom_valid (p := { p with toLexer := l }) hflags₁ hl
        (fun htype => hflags ▸ hadvance.char htype) hother hreference hatom (Nat.le_trans hfresh.captures hcaptures)
        (Nat.le_trans hfresh.nonCaptures hnon)
      exact ih (hread.flags.trans hflags₁) hp₁ (hread.counted hcounted₁) (hread.inputStart ▸ hgroups₁) h hcaptures hnon
        hdone (termsValid_append.mpr ⟨hterms, termsValid_single.mpr hvalid⟩)

/-! ## Whole patterns -/

/-- The parser opens as many capturing groups as the scanner finds. -/
theorem parseTree_count {alts : List (List Term)} (h : parseTree tables (cesu8 us) flags = .ok (alts, p)) :
    p.capturesCount = reCountGroups (cesu8 us) + 1 := by
  rw [parseTree] at h
  obtain ⟨⟨n, hpassed, hcount⟩, heof⟩ := treeLoop_reads rfl h
  obtain ⟨us', hus', hscan⟩ := hpassed.scans us rfl
  rw [heof rfl] at hus'
  cases us' with
  | nil =>
    rw [scanUnits, Nat.zero_add] at hscan
    rw [hcount, reCountGroups_cesu8, hscan]
    exact Nat.add_comm 1 n
  | cons u us' =>
    have := length_cesu8_cons u us'
    rw [← hus'] at this
    cases this

theorem parseTree_valid {alts : List (List Term)}
    (h : parseTree tables (cesu8 us) flags = .ok (alts, p)) :
    altsValid tables flags.unicode p.capturesCount p.nonCapturesCount alts := by
  have hcount := parseTree_count h
  rw [parseTree] at h
  refine treeLoop_valid rfl rfl (fun n hn => ?_) ?_ h (Nat.le_refl _) (Nat.le_refl _) ?_ ?_
  · cases hn
  · show reCountGroups (cesu8 us) < p.capturesCount
    omega
  · rw [altsValid]
    exact trivial
  · rw [termsValid]
    exact trivial

theorem parseTree_ids {alts : List (List Term)} (h : parseTree tables (cesu8 us) flags = .ok (alts, p)) :
    (altsIds alts).Nodup := by
  rw [parseTree] at h
  obtain ⟨new, hnew, hfresh⟩ := treeLoop_ids h
  rw [altsIds, termsIds, List.nil_append, List.nil_append] at hnew
  rw [hnew]
  exact hfresh.nodup

/-- Every non-capturing group has taken something of the pattern. -/
theorem treeAtom_nonCaptures {term : Term} {p p' : TreeParser} (hp : p.inputCurr = cesu8 us)
    (h : treeAtom tables p = .ok (term, p')) :
    p'.nonCapturesCount ≤ p.nonCapturesCount + 1 ∧ p'.inputCurr.length ≤ p.inputCurr.length := by
  refine ⟨?_, (treeAtom_reads hp h).1.length⟩
  rw [treeAtom] at h
  split at h
  case h_6 =>
    split at h
    · cases h
      exact Nat.le_refl _
    · cases h
      exact Nat.le_succ _
  case h_7 =>
    split at h
    · cases h
      exact Nat.le_succ _
    · cases h
  case h_8 =>
    obtain ⟨⟨content, l₁⟩, -, h⟩ := bind_eq_ok h
    dsimp only at h
    split at h
    · obtain ⟨l₂, -, h⟩ := bind_eq_ok h
      cases h
      exact Nat.le_succ _
    · cases h
  all_goals
    cases h
    exact Nat.le_succ _

theorem treeLoop_nonCaptures {steps : Nat} {expectEof : Bool} {done alts : List (List Term)} {terms : List Term}
    {p p' : TreeParser} (hp : p.inputCurr = cesu8 us) (h : treeLoop tables steps expectEof done terms p = .ok (alts, p')) :
    p'.nonCapturesCount + p'.inputCurr.length ≤ p.nonCapturesCount + p.inputCurr.length := by
  induction steps generalizing expectEof done terms p p' alts us with
  | zero => cases h
  | succ steps ih =>
    obtain ⟨l, htoken, h⟩ := bind_eq_ok h
    have hadvance := (reParseNextToken_advances hp htoken)
    obtain ⟨us₁, hl⟩ := hadvance.passed.cesu8 hp
    have hlength := hadvance.passed.length
    dsimp only at h
    split at h
    case h_1 htype =>
      obtain ⟨⟨body, p₁⟩, hbody, h⟩ := bind_eq_ok h
      have hinner := ih (p := { p with toLexer := l, capturesCount := p.capturesCount + 1 }) hl hbody
      obtain ⟨⟨n, hn, -⟩, -⟩ :=
        treeLoop_reads (p := { p with toLexer := l, capturesCount := p.capturesCount + 1 }) hl hbody
      obtain ⟨l₂, hquantifier, h⟩ := bind_eq_ok h
      have hbehind : Passed 0 false false p₁.toLexer l₂ := Passed.quantifier hquantifier
      obtain ⟨us₃, hl₂⟩ := (hn.trans hbehind).cesu8 hl
      have hrest := ih (p := { p₁ with toLexer := l₂ }) hl₂ h
      have := hbehind.length
      dsimp only at hinner hrest
      omega
    case h_2 htype =>
      replace htype : l.token.type = .startNonCaptureGroup := htype
      have hshort := hadvance.shorter (by rw [htype]; decide)
      obtain ⟨⟨body, p₁⟩, hbody, h⟩ := bind_eq_ok h
      have hinner := ih (p := { p with toLexer := l, nonCapturesCount := p.nonCapturesCount + 1 }) hl hbody
      obtain ⟨⟨n, hn, -⟩, -⟩ :=
        treeLoop_reads (p := { p with toLexer := l, nonCapturesCount := p.nonCapturesCount + 1 }) hl hbody
      obtain ⟨l₂, hquantifier, h⟩ := bind_eq_ok h
      have hbehind : Passed 0 false false p₁.toLexer l₂ := Passed.quantifier hquantifier
      obtain ⟨us₃, hl₂⟩ := (hn.trans hbehind).cesu8 hl
      have hrest := ih (p := { p₁ with toLexer := l₂ }) hl₂ h
      have := hbehind.length
      dsimp only at hinner hrest
      omega
    case h_3 htype =>
      obtain ⟨⟨body, p₁⟩, hbody, h⟩ := bind_eq_ok h
      have hinner := ih (p := { p with toLexer := l }) hl hbody
      obtain ⟨⟨n, hn, -⟩, -⟩ := treeLoop_reads (p := { p with toLexer := l }) hl hbody
      obtain ⟨l₂, hquantifier, h⟩ := bind_eq_ok h
      have hbehind : Passed 0 false false p₁.toLexer l₂ := lookaheadQuantifier_passed hquantifier
      obtain ⟨us₃, hl₂⟩ := (hn.trans hbehind).cesu8 hl
      have hrest := ih (p := { p₁ with toLexer := l₂ }) hl₂ h
      have := hbehind.length
      dsimp only at hinner hrest
      omega
    case h_4 htype =>
      have hrest := ih (p := { p with toLexer := l }) hl h
      dsimp only at hrest
      omega
    case h_5 htype =>
      rcases ite_eq_iff.mp h with ⟨-, h⟩ | ⟨-, h⟩
      · cases h
      · cases h
        dsimp only
        omega
    case h_6 htype =>
      rcases ite_eq_iff.mp h with ⟨-, h⟩ | ⟨-, h⟩
      · cases h
      · cases h
        dsimp only
        omega
    case h_7 _ _ _ _ _ heof =>
      have hshort := hadvance.shorter heof
      obtain ⟨⟨term, p₁⟩, hatom, h⟩ := bind_eq_ok h
      obtain ⟨hcount, hless⟩ := treeAtom_nonCaptures (p := { p with toLexer := l }) hl hatom
      obtain ⟨us₂, hp₁⟩ := (treeAtom_reads (p := { p with toLexer := l }) hl hatom).1.cesu8 hl
      have hrest := ih hp₁ h
      dsimp only at hcount hless hrest
      omega

theorem parseTree_nonCaptures {alts : List (List Term)} (h : parseTree tables (cesu8 us) flags = .ok (alts, p)) :
    p.nonCapturesCount ≤ (cesu8 us).length := by
  rw [parseTree] at h
  have hbound := treeLoop_nonCaptures rfl h
  dsimp only at hbound
  omega

end

end Regexp
end JJS
