import JJS.Regexp.Atom
import JJS.Regexp.Positions

/-!
# JJS.Regexp.StepBack

The way back of a greedy character iterator. A step forward pairs a high surrogate with the low one behind it, and a
step back pairs a low surrogate with the high one before it. The two agree everywhere but at the first position of the
iterator: it may be inside a pair, or the input may begin with a low surrogate, and then the last step back goes too
far or looks at what is before the input (`stepsBackExact_iff`).
-/

namespace JJS
namespace Regexp

open Utf8 Lit Strings

/-! ## One step -/

/-- The step of an atom from a position to the next one. -/
def StepsTo (flags : Flags) (us : List CodeUnit) (n m : Nat) : Prop :=
  n < us.length ∧ (flags.unicode = true ∧ PairAt us n ∧ m = n + 2 ∨ ¬(flags.unicode = true ∧ PairAt us n) ∧ m = n + 1)

/-- A low surrogate, with a high one before it or at the beginning of the input. -/
def MisledAt (us : List CodeUnit) (n : Nat) : Prop :=
  ∃ v, us[n]? = some v ∧ IsLowUnit v ∧ (n = 0 ∨ ∃ u, us[n - 1]? = some u ∧ IsHighUnit u)

section

variable {flags : Flags} {us : List CodeUnit} {n m : Nat}

theorem not_low_of_high {u : CodeUnit} (h : IsHighUnit u) : ¬IsLowUnit u := by
  intro hlow
  have h1 := h.2
  have h2 := hlow.1
  omega

theorem StepsTo.le (h : StepsTo flags us n m) : m ≤ us.length := by
  obtain ⟨hlt, hcases⟩ := h
  cases hcases with
  | inl hpair =>
    obtain ⟨-, ⟨_, _, _, hv, _⟩, rfl⟩ := hpair
    have := (List.getElem?_eq_some_iff.mp hv).1
    omega
  | inr hunit =>
    rw [hunit.2]
    exact hlt

theorem misledAt_succ_iff : MisledAt us (n + 1) ↔ PairAt us n := by
  constructor
  · intro h
    obtain ⟨v, hv, hlow, hbefore⟩ := h
    cases hbefore with
    | inl hzero => exact absurd hzero (Nat.succ_ne_zero n)
    | inr hhigh =>
      obtain ⟨u, hu, hhigh⟩ := hhigh
      exact ⟨u, v, hu, hv, hhigh, hlow⟩
  · intro h
    obtain ⟨u, v, hu, hv, hhigh, hlow⟩ := h
    exact ⟨v, hv, hlow, .inr ⟨u, hu, hhigh⟩⟩

/-- Where a step has come from, a step back is not misled. -/
theorem StepsTo.not_misledAt (h : StepsTo flags us n m) (hunicode : flags.unicode = true) : ¬MisledAt us m := by
  obtain ⟨-, hcases⟩ := h
  cases hcases with
  | inl hpair =>
    obtain ⟨-, ⟨u, v, hu, hv, hhigh, hlow⟩, rfl⟩ := hpair
    rw [misledAt_succ_iff]
    intro hpair
    obtain ⟨v', w, hv', hw, hhigh', hlow'⟩ := hpair
    rw [hv, Option.some.injEq] at hv'
    rw [← hv'] at hhigh'
    exact not_low_of_high hhigh' hlow
  | inr hunit =>
    obtain ⟨hpair, rfl⟩ := hunit
    rw [misledAt_succ_iff]
    exact fun hp => hpair ⟨hunicode, hp⟩

variable {subject : Subject}

/-- The step back from the next position, and the lowest address it reads. -/
theorem StepsTo.stepBack (hholds : subject.Holds us) (h : StepsTo flags us n m) :
    (ecmaRegexpStepBack subject.memory flags (subject.address us m) = subject.address us n ∧
      subject.inputStart ≤ stepBackLowest subject.memory flags (subject.address us m)) ↔
      ¬(flags.unicode = true ∧ MisledAt us n) := by
  obtain ⟨hlt, hcases⟩ := h
  cases hcases with
  | inl hpair =>
    obtain ⟨hunicode, hpair, rfl⟩ := hpair
    obtain ⟨u, v, hu, hv, hhigh, hlow⟩ := hpair
    have hlen := (List.getElem?_eq_some_iff.mp hv).1
    refine iff_of_true ⟨(hholds.stepBack flags hlen).1 ⟨hunicode, u, v, hu, hv, hhigh, hlow⟩, ?_⟩ ?_
    · rw [stepBackLowest, hholds.readPrev hv]
      dsimp only
      rw [if_pos ⟨hunicode, (litIsLowSurrogate_iff v).mpr hlow⟩, hholds.utf8Decr hu]
      exact Subject.inputStart_le_address
    · intro hmisled
      obtain ⟨w, hw, hlow', -⟩ := hmisled.2
      rw [hu, Option.some.injEq] at hw
      rw [← hw] at hlow'
      exact not_low_of_high hhigh hlow'
  | inr hunit =>
    obtain ⟨-, rfl⟩ := hunit
    have hu : us[n]? = some us[n] := List.getElem?_eq_getElem hlt
    rw [stepBackLowest, hholds.readPrev hu]
    dsimp only
    by_cases hlow : flags.unicode = true ∧ IsLowUnit us[n]
    · have hcond : flags.unicode = true ∧ litIsLowSurrogate us[n] = true :=
        ⟨hlow.1, (litIsLowSurrogate_iff _).mpr hlow.2⟩
      rw [if_pos hcond]
      cases n with
      | zero =>
        -- the code unit before the first one is outside the input
        refine iff_of_false ?_ (not_not_intro ⟨hlow.1, us[0], hu, hlow.2, .inl rfl⟩)
        intro hback
        have hlowest := hback.2
        rw [Subject.address_zero] at hlowest
        have := @utf8Decr_lt subject.memory _ subject.start_pos
        omega
      | succ n =>
        have hbefore : us[n]? = some us[n] := List.getElem?_eq_getElem (Nat.lt_of_succ_lt hlt)
        have hlowest : subject.inputStart ≤ utf8Decr subject.memory (subject.address us (n + 1)) := by
          rw [hholds.utf8Decr hbefore]
          exact Subject.inputStart_le_address
        rw [misledAt_succ_iff, and_iff_left hlowest]
        by_cases hpair : PairAt us n
        · rw [(hholds.stepBack flags hlt).1 ⟨hlow.1, hpair⟩]
          refine iff_of_false ?_ (not_not_intro ⟨hlow.1, hpair⟩)
          have := @Subject.address_lt_succ subject us n _ hbefore
          omega
        · rw [(hholds.stepBack flags hlt).2 fun hp => hpair hp.2]
          exact iff_of_true rfl fun hp => hpair hp.2
    · have hcond : ¬(flags.unicode = true ∧ litIsLowSurrogate us[n] = true) := by
        rw [litIsLowSurrogate_iff]
        exact hlow
      rw [if_neg hcond, ecmaRegexpStepBack, hholds.readPrev hu]
      dsimp only
      rw [if_neg fun hc => hcond ⟨hc.1, hc.2.1⟩]
      refine iff_of_true ⟨rfl, Subject.inputStart_le_address⟩ ?_
      intro hmisled
      obtain ⟨v, hv, hlow', -⟩ := hmisled.2
      rw [hu, Option.some.injEq] at hv
      rw [← hv] at hlow'
      exact hlow ⟨hmisled.1, hlow'⟩

end

/-! ## The addresses of an iterator -/

section

variable {tables : CaseTables} {flags : Flags} {subject : Subject} {code : List Byte} {bc : Nat}

/-- Between two addresses there is one match of the atom at a position of the byte code. -/
def Passes (tables : CaseTables) (flags : Flags) (subject : Subject) (code : List Byte) (bc p q : Nat) : Prop :=
  ∃ depth st st', ecmaRegexpRun tables flags subject code depth bc p st = some (some q, st')

/-- The first loop of the iterators passes so many addresses. -/
theorem iterateAtom_passes {depth count p q : Nat} {st st' : Matcher}
    (h : iterateAtom (ecmaRegexpRun tables flags subject code depth) bc count p st = some (some q, st')) :
    ∃ ps, ps.length = count ∧ (p :: ps).getLast? = some q ∧
      (p :: ps).IsChain (Passes tables flags subject code bc) := by
  induction count generalizing p st with
  | zero =>
    cases h
    exact ⟨[], rfl, rfl, List.isChain_singleton _⟩
  | succ count ih =>
    rw [iterateAtom, Option.bind_eq_bind, Option.bind_eq_some_iff] at h
    obtain ⟨⟨matched, st₁⟩, hrun, hrest⟩ := h
    cases matched with
    | none => cases hrest
    | some r =>
      obtain ⟨ps, hlength, hlast, hchain⟩ := ih hrest
      refine ⟨r :: ps, by rw [List.length_cons, hlength], ?_, ?_⟩
      · rw [List.getLast?_cons_cons]
        exact hlast
      · exact List.isChain_cons_cons.mpr ⟨⟨depth, st, st₁, hrun⟩, hchain⟩

/-- And so does the second loop of the greedy one. -/
theorem iterateGreedy_passes {depth count p q iterator k : Nat} {st st' : Matcher}
    (h : iterateGreedy (ecmaRegexpRun tables flags subject code depth) bc count p iterator st = some (q, k, st')) :
    ∃ ps, iterator + ps.length = k ∧ (p :: ps).getLast? = some q ∧
      (p :: ps).IsChain (Passes tables flags subject code bc) := by
  induction count generalizing p iterator st with
  | zero =>
    cases h
    exact ⟨[], rfl, rfl, List.isChain_singleton _⟩
  | succ count ih =>
    rw [iterateGreedy, Option.bind_eq_bind, Option.bind_eq_some_iff] at h
    obtain ⟨⟨matched, st₁⟩, hrun, hrest⟩ := h
    cases matched with
    | none =>
      cases hrest
      exact ⟨[], rfl, rfl, List.isChain_singleton _⟩
    | some r =>
      obtain ⟨ps, hlength, hlast, hchain⟩ := ih hrest
      refine ⟨r :: ps, by rw [List.length_cons]; omega, ?_, ?_⟩
      · rw [List.getLast?_cons_cons]
        exact hlast
      · exact List.isChain_cons_cons.mpr ⟨⟨depth, st, st₁, hrun⟩, hchain⟩

variable {us : List CodeUnit} {atom : Atom}

/-- An ASCII character at an address of the input is a code unit of its own. -/
theorem ascii_unit (hholds : subject.Holds us) {n : Nat} (hn : n < us.length)
    (hascii : (subject.memory (subject.address us n)).toNat < 0x80) :
    (encode us[n].toNat).length = 1 ∧ ¬PairAt us n := by
  have hu : us[n]? = some us[n] := List.getElem?_eq_getElem hn
  have hmem := hholds.unit_at hu
  have hlt := us[n].isLt
  have hsmall : us[n].toNat < 0x80 := by
    by_contra hge
    have hfirst : ∀ b t, encode us[n].toNat = b :: t → 0x80 ≤ b.toNat → False := by
      intro b t hencode hb
      rw [hencode] at hmem
      have hbyte := (memoryAt_cons_iff.mp hmem).1
      rw [hbyte] at hascii
      omega
    have hseq : Sequence 0x90 (encode us[n].toNat) := (unitPoint us[n]).sequence
    have hvalue := (unitPoint us[n]).value_encode
    rw [unitPoint_encode] at hvalue
    generalize hencode : encode us[n].toNat = s at hseq
    cases hseq with
    | one ha =>
      rw [hencode, value] at hvalue
      have : us[n].toNat = _ := hvalue.symm
      omega
    | two ha ha' hb => exact hfirst _ _ hencode (by omega)
    | three ha ha' hb hd he => exact hfirst _ _ hencode (by omega)
    | four ha ha' hb hd he _ _ => exact hfirst _ _ hencode (by omega)
  constructor
  · rw [encode, if_pos hsmall]
    rfl
  · intro hpair
    obtain ⟨u, _, hu', _, hhigh, _⟩ := hpair
    rw [hu, Option.some.injEq] at hu'
    rw [← hu'] at hhigh
    have := hhigh.1
    omega

/-- A match of the atom is a step from a position of the input to the next one. -/
theorem Passes.stepsTo (hholds : subject.Holds us)
    (hatom : At code bc (atom.bytes flags.unicode ++ [Opcode.iteratorEnd.toByte])) (hascii : atom.Ascii) {n q : Nat}
    (hn : n ≤ us.length) (h : Passes tables flags subject code bc (subject.address us n) q) :
    ∃ m, StepsTo flags us n m ∧ q = subject.address us m := by
  obtain ⟨depth, st, st', hrun⟩ := h
  have hresult := Atom.run_at hatom hrun
  split at hresult
  · rename_i hcond
    obtain ⟨hlt, haccepts⟩ := hcond
    have hq : q = atom.next tables flags subject (subject.address us n) := by
      injection hresult with hmatched
      exact Option.some.inj hmatched
    have hn' : n < us.length := (Subject.address_lt_end_iff hholds hn).mp hlt
    obtain ⟨hpair, hunit⟩ := hholds.advance tables flags hn'
    have hadvance : ∃ m, StepsTo flags us n m ∧
        (ecmaRegexpAdvance tables flags subject (subject.address us n)).2 = subject.address us m := by
      by_cases hp : flags.unicode = true ∧ PairAt us n
      · exact ⟨n + 2, ⟨hn', .inl ⟨hp.1, hp.2, rfl⟩⟩, hpair hp⟩
      · exact ⟨n + 1, ⟨hn', .inr ⟨hp, rfl⟩⟩, hunit hp⟩
    rw [hq]
    cases atom with
    | byte b =>
      have hb : b = subject.memory (subject.address us n) := beq_iff_eq.mp haccepts
      have hbyte : (subject.memory (subject.address us n)).toNat < 0x80 := by
        rw [← hb]
        exact hascii
      obtain ⟨hlength, hnot⟩ := ascii_unit hholds hn' hbyte
      refine ⟨n + 1, ⟨hn', .inr ⟨fun hp => hnot hp.2, rfl⟩⟩, ?_⟩
      rw [Subject.address_succ (List.getElem?_eq_getElem hn'), hlength]
      rfl
    | char cp => exact hadvance
    | classEscape escape => exact hadvance
    | charClass cls => exact hadvance
    | period => exact hadvance
  · injection hresult with hmatched
    cases hmatched

/-- The addresses of an iterator are those of positions of the input. -/
theorem passes_positions (hholds : subject.Holds us)
    (hatom : At code bc (atom.bytes flags.unicode ++ [Opcode.iteratorEnd.toByte])) (hascii : atom.Ascii) {n : Nat}
    (hn : n ≤ us.length) {ps : List Nat}
    (h : (subject.address us n :: ps).IsChain (Passes tables flags subject code bc)) :
    ∃ ns, ps = ns.map (subject.address us) ∧ (n :: ns).IsChain (StepsTo flags us) := by
  induction ps generalizing n with
  | nil => exact ⟨[], rfl, List.isChain_singleton n⟩
  | cons p ps ih =>
    rw [List.isChain_cons_cons] at h
    obtain ⟨m, hsteps, rfl⟩ := h.1.stepsTo hholds hatom hascii hn
    obtain ⟨ns, hns, hchain⟩ := ih hsteps.le h.2
    exact ⟨m :: ns, by rw [hns, List.map_cons], List.isChain_cons_cons.mpr ⟨hsteps, hchain⟩⟩

end

/-! ## The way back -/

/-- Successive calls from the last address give the addresses before it in order, down to the one of the minimum number
of iterations, and nothing before the input is read. -/
structure StepsBackExact (subject : Subject) (flags : Flags) (qmin : Nat) (positions : List Nat) : Prop where
  addresses : ∀ last, positions.getLast? = some last →
    List.iterate (ecmaRegexpStepBack subject.memory flags) last (positions.length - qmin) =
      (positions.drop qmin).reverse
  inside : ∀ last, positions.getLast? = some last →
    ∀ p ∈ List.iterate (ecmaRegexpStepBack subject.memory flags) last (positions.length - 1 - qmin),
      subject.inputStart ≤ stepBackLowest subject.memory flags p

theorem iterate_eq_cons_iff (f : Nat → Nat) (a : Nat) (l : List Nat) :
    List.iterate f a (l.length + 1) = a :: l ↔ (a :: l).IsChain fun q p => f q = p := by
  induction l generalizing a with
  | nil => exact iff_of_true rfl (List.isChain_singleton a)
  | cons b l ih =>
    rw [List.length_cons, List.iterate, List.cons.injEq, and_iff_right rfl, List.isChain_cons_cons]
    constructor
    · intro h
      have hhead : f a = b := by
        have := congrArg List.head? h
        exact Option.some.inj this
      rw [hhead] at h
      exact ⟨hhead, (ih b).mp h⟩
    · intro h
      rw [h.1]
      exact (ih b).mpr h.2

theorem iterate_take (f : Nat → Nat) (a n : Nat) : (List.iterate f a (n + 1)).dropLast = List.iterate f a n := by
  induction n generalizing a with
  | zero => rfl
  | succ n ih =>
    have hne : List.iterate f (f a) (n + 1) ≠ [] := List.cons_ne_nil _ _
    rw [List.iterate, List.dropLast_cons_of_ne_nil hne, ih]
    rfl

/-- For addresses with nothing in front of the minimum, the calls are exact when every one of them is. -/
theorem stepsBackExact_iff_chain {subject : Subject} {flags : Flags} {qmin : Nat} {positions : List Nat}
    (hqmin : qmin < positions.length) :
    StepsBackExact subject flags qmin positions ↔ (positions.drop qmin).IsChain fun p q =>
      ecmaRegexpStepBack subject.memory flags q = p ∧
        subject.inputStart ≤ stepBackLowest subject.memory flags q := by
  generalize hl : positions.drop qmin = l
  have hne : l ≠ [] := by
    rw [← hl]
    intro hnil
    have := List.drop_eq_nil_iff.mp hnil
    omega
  have hlength : l.length = positions.length - qmin := by rw [← hl, List.length_drop]
  obtain ⟨last, r, hr⟩ : ∃ last r, l.reverse = last :: r := by
    cases hrev : l.reverse with
    | nil => exact absurd (List.reverse_eq_nil_iff.mp hrev) hne
    | cons last r => exact ⟨last, r, rfl⟩
  have hrlength : r.length + 1 = positions.length - qmin := by
    have hcount := congrArg List.length hr
    rw [List.length_reverse, List.length_cons] at hcount
    omega
  have hlast : positions.getLast? = some last := by
    have hget : l.getLast? = some last := by rw [← List.head?_reverse, hr]; rfl
    rw [← hget, ← hl, List.getLast?_drop, if_neg (by omega)]
  rw [← List.isChain_reverse, hr]
  constructor
  · intro h
    have haddresses := h.addresses last hlast
    rw [hl, hr, ← hrlength, iterate_eq_cons_iff] at haddresses
    have hinside := h.inside last hlast
    have hcount : positions.length - 1 - qmin = r.length := by omega
    have hiterate := (iterate_eq_cons_iff _ _ _).mpr haddresses
    rw [hcount, ← iterate_take, hiterate] at hinside
    refine (List.isChain_iff_getElem.mpr ?_)
    intro i hi
    have hstep := List.isChain_iff_getElem.mp haddresses i hi
    refine ⟨hstep, hinside _ ?_⟩
    have hlt : i < ((last :: r).dropLast).length := by
      rw [List.length_dropLast]
      omega
    have hget : ((last :: r).dropLast)[i] = (last :: r)[i] := List.getElem_dropLast hlt
    rw [← hget]
    exact List.getElem_mem hlt
  · intro h
    have hchain : (last :: r).IsChain fun q p => ecmaRegexpStepBack subject.memory flags q = p :=
      h.imp fun _ _ hqp => hqp.1
    have hiterate := (iterate_eq_cons_iff _ _ _).mpr hchain
    constructor
    · intro last' hlast'
      rw [hlast, Option.some.injEq] at hlast'
      rw [← hlast', hl, hr, ← hrlength, hiterate]
    · intro last' hlast' p hp
      rw [hlast, Option.some.injEq] at hlast'
      have hcount : positions.length - 1 - qmin = r.length := by omega
      rw [← hlast', hcount, ← iterate_take, hiterate] at hp
      obtain ⟨i, hi, hget⟩ := List.getElem_of_mem hp
      have hi' : i + 1 < (last :: r).length := by
        rw [List.length_dropLast] at hi
        omega
      have hstep := List.isChain_iff_getElem.mp h i hi'
      rw [List.getElem_dropLast] at hget
      rw [← hget]
      exact hstep.2

/-- A greedy iterator over one character goes back through the positions it passed, and reads nothing before the input,
except that in full unicode mode the step back to its first position goes wrong there when that position is inside a
pair of surrogates, or when the input begins with a low surrogate. -/
theorem stepsBackExact_iff {tables : CaseTables} {flags : Flags} {subject : Subject} {code : List Byte} {bc : Nat}
    {us : List CodeUnit} {atom : Atom} (hholds : subject.Holds us)
    (hatom : At code bc (atom.bytes flags.unicode ++ [Opcode.iteratorEnd.toByte])) (hascii : atom.Ascii)
    {n qmin : Nat} (hn : n ≤ us.length) {ps : List Nat}
    (hpasses : (subject.address us n :: ps).IsChain (Passes tables flags subject code bc)) (hqmin : qmin ≤ ps.length) :
    StepsBackExact subject flags qmin (subject.address us n :: ps) ↔
      ¬(flags.unicode = true ∧ qmin = 0 ∧ ps ≠ [] ∧ MisledAt us n) := by
  obtain ⟨ns, rfl, hchain⟩ := passes_positions hholds hatom hascii hn hpasses
  rw [stepsBackExact_iff_chain (by rw [List.length_cons]; omega)]
  -- behind the first step every step back is right
  have hbehind : ∀ (n : Nat) (ns : List Nat), (n :: ns).IsChain (StepsTo flags us) →
      ¬(flags.unicode = true ∧ MisledAt us n) → ((n :: ns).map (subject.address us)).IsChain fun p q =>
        ecmaRegexpStepBack subject.memory flags q = p ∧
          subject.inputStart ≤ stepBackLowest subject.memory flags q := by
    intro n ns
    induction ns generalizing n with
    | nil =>
      intro _ _
      exact List.isChain_singleton _
    | cons m ns ih =>
      intro hchain hstart
      rw [List.isChain_cons_cons] at hchain
      rw [List.map_cons, List.map_cons, List.isChain_cons_cons]
      refine ⟨(hchain.1.stepBack hholds).mpr hstart, ih m hchain.2 ?_⟩
      exact fun hm => hchain.1.not_misledAt hm.1 hm.2
  by_cases hmisled : flags.unicode = true ∧ MisledAt us n
  · cases qmin with
    | zero =>
      cases ns with
      | nil => exact iff_of_true (List.isChain_singleton _) fun h => h.2.2.1 rfl
      | cons m ns =>
        refine iff_of_false ?_ (not_not_intro ⟨hmisled.1, rfl, List.cons_ne_nil _ _, hmisled.2⟩)
        rw [List.drop_zero, List.map_cons, List.isChain_cons_cons]
        intro h
        exact ((List.isChain_cons_cons.mp hchain).1.stepBack hholds).mp h.1 hmisled
    | succ qmin =>
      refine iff_of_true ?_ fun h => Nat.succ_ne_zero qmin h.2.1
      cases ns with
      | nil => exact absurd hqmin (Nat.not_succ_le_zero qmin)
      | cons m ns =>
        rw [List.isChain_cons_cons] at hchain
        have hrest := hbehind m ns hchain.2 fun hm => hchain.1.not_misledAt hm.1 hm.2
        rw [List.drop_succ_cons, List.map_cons, ← List.map_cons]
        exact hrest.suffix (List.drop_suffix _ _)
  · refine iff_of_true ?_ fun h => hmisled ⟨h.1, h.2.2.2⟩
    have hall := hbehind n ns hchain hmisled
    rw [List.map_cons] at hall
    exact hall.suffix (List.drop_suffix _ _)

/-- The byte code of `/.*x/` in full unicode mode; its atom is at the fourth position. -/
def dotStarCode : List Byte :=
  [Opcode.greedyIterator.toByte, 0#8, 0#8, 2#8, Opcode.unicodePeriod.toByte, Opcode.iteratorEnd.toByte,
    Opcode.byte.toByte, 0x78#8, Opcode.eof.toByte]

theorem holds_inputAt8 (us : List CodeUnit) : (inputAt8 (cesu8 us)).Holds us := by
  refine ⟨rfl, ?_⟩
  intro i b hb
  show (if 8 + i < 8 then 0#8 else (cesu8 us).getD (8 + i - 8) 0#8) = b
  rw [if_neg (by omega), Nat.add_sub_cancel_left, List.getD_eq_getElem?_getD, hb]
  rfl

/-- On one letter the iterator goes back as it went. -/
theorem stepsBack_letter : StepsBackExact (inputAt8 (cesu8 [0x61#16])) { unicode := true } 0 [8, 9] ↔
    ¬(true = true ∧ 0 = 0 ∧ [9] ≠ [] ∧ MisledAt [0x61#16] 0) :=
  @stepsBackExact_iff asciiTables _ _ dotStarCode 4 _ .period (holds_inputAt8 [0x61#16]) ⟨_, rfl⟩ trivial 0 0
    (Nat.zero_le _) _ (List.isChain_cons_cons.mpr ⟨⟨2, ⟨[], []⟩, ⟨[], []⟩, rfl⟩, List.isChain_singleton _⟩) (Nat.zero_le _)

/-- `/.*x/u` on a lone low surrogate: the iterator matches it, and on the way back it looks at what is before the
input. -/
theorem loneLow_misled :
    (inputAt8 (cesu8 [0xde00#16])).Holds [0xde00#16] ∧
      At dotStarCode 4 (Atom.period.bytes true ++ [Opcode.iteratorEnd.toByte]) ∧
      [8, 11].IsChain (Passes asciiTables { unicode := true } (inputAt8 (cesu8 [0xde00#16])) dotStarCode 4) ∧
      ¬StepsBackExact (inputAt8 (cesu8 [0xde00#16])) { unicode := true } 0 [8, 11] := by
  refine ⟨holds_inputAt8 _, ⟨_, rfl⟩,
    List.isChain_cons_cons.mpr ⟨⟨2, ⟨[], []⟩, ⟨[], []⟩, rfl⟩, List.isChain_singleton _⟩, ?_⟩
  intro h
  have hlowest := h.inside 11 rfl 11 (List.mem_cons_self)
  exact absurd hlowest (by decide)

end Regexp
end JJS
