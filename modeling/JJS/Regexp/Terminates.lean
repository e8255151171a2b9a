import JJS.Regexp.Groups
import JJS.Regexp.Iteration

/-!
# JJS.Regexp.Terminates

Every run of the matcher on the byte code of a pattern ends. A part of the pattern is good when what stands behind it
is, by recursion on its tree; a group also by recursion on how often its iterator can still be raised.
-/

namespace JJS
namespace Regexp

open Utf8 Lit Strings Fuel Matcher

/-! ## Places -/

section

variable (unicode : Bool)

mutual

/-- The places of the groups of a term at a position. -/
def Term.places (bc : Nat) : Term → List (GroupId × Place)
  | .group g body =>
    ((g.isCapturing, g.idx), ⟨bc + (g.startBytes (altsBytes unicode body)).length,
        if g.isCapturing then g.idx else (BitVec.ofNat 32 g.captureStart).toNat,
        (BitVec.ofNat 32 g.captureCount).toNat⟩) ::
      altsPlaces (bc + (g.startBytes (altsBytes unicode body)).length) body
  | .lookahead l body =>
    altsPlaces (bc + (l.bytes (altsBytes unicode body)).length - ((altsBytes unicode body).length + 1)) body
  | .assertion _ => []
  | .atom _ _ => []
  | .backreference _ => []

/-- The places of the groups of an alternative. -/
def termsPlaces (bc : Nat) : List Term → List (GroupId × Place)
  | [] => []
  | term :: terms => Term.places bc term ++ termsPlaces (bc + (term.bytes unicode).length) terms

/-- The places of the groups of a body. -/
def altsPlaces (bc : Nat) : List (List Term) → List (GroupId × Place)
  | [] => []
  | [terms] => termsPlaces bc terms
  | terms :: other :: alts =>
    termsPlaces (bc + 1 + (encodeValue (sizeValue (termsBytes unicode terms))).length) terms ++
      nextPlaces (bc + (alternativeBytes .alternativeStart (termsBytes unicode terms)).length) (other :: alts)

/-- The places behind the first alternative. -/
def nextPlaces (bc : Nat) : List (List Term) → List (GroupId × Place)
  | [] => []
  | terms :: alts =>
    termsPlaces (bc + 1 + (encodeValue (sizeValue (termsBytes unicode terms))).length) terms ++
      nextPlaces (bc + (alternativeBytes .alternativeNext (termsBytes unicode terms)).length) alts

end

mutual

theorem places_ids (bc : Nat) (term : Term) : (term.places unicode bc).map Prod.fst = term.ids := by
  match term with
  | .group g body => rw [Term.places, Term.ids, List.map_cons, altsPlaces_ids]
  | .lookahead l body => rw [Term.places, Term.ids, altsPlaces_ids]
  | .assertion a => rw [Term.places, Term.ids, List.map_nil]
  | .atom atom q => rw [Term.places, Term.ids, List.map_nil]
  | .backreference idx => rw [Term.places, Term.ids, List.map_nil]

theorem termsPlaces_ids (bc : Nat) (terms : List Term) : (termsPlaces unicode bc terms).map Prod.fst = termsIds terms := by
  match terms with
  | [] => rw [termsPlaces, termsIds, List.map_nil]
  | term :: terms => rw [termsPlaces, termsIds, List.map_append, places_ids, termsPlaces_ids]

theorem altsPlaces_ids (bc : Nat) (alts : List (List Term)) : (altsPlaces unicode bc alts).map Prod.fst = altsIds alts := by
  match alts with
  | [] => rw [altsPlaces, altsIds, List.map_nil]
  | [terms] => rw [altsPlaces, altsIds_single, termsPlaces_ids]
  | terms :: other :: alts => rw [altsPlaces, altsIds, List.map_append, termsPlaces_ids, nextPlaces_ids]

theorem nextPlaces_ids (bc : Nat) (alts : List (List Term)) : (nextPlaces unicode bc alts).map Prod.fst = altsIds alts := by
  match alts with
  | [] => rw [nextPlaces, altsIds, List.map_nil]
  | terms :: alts => rw [nextPlaces, altsIds, List.map_append, termsPlaces_ids, nextPlaces_ids]

end

/-- Every group has one place. -/
theorem exists_info {places : List (GroupId × Place)} (h : (places.map Prod.fst).Nodup) :
    ∃ info : GroupId → Place, ∀ x ∈ places, info x.1 = x.2 := by
  induction places with
  | nil => exact ⟨fun _ => ⟨0, 0, 0⟩, fun x hx => (List.not_mem_nil hx).elim⟩
  | cons y places ih =>
    rw [List.map_cons, List.nodup_cons] at h
    obtain ⟨info, hinfo⟩ := ih h.2
    refine ⟨Function.update info y.1 y.2, ?_⟩
    intro x hx
    rcases List.mem_cons.mp hx with rfl | hx
    · exact Function.update_self _ _ _
    · have hne : x.1 ≠ y.1 := fun heq => h.1 (heq ▸ List.mem_map_of_mem hx)
      rw [Function.update_of_ne hne]
      exact hinfo x hx

end

/-! ## Lookaheads and alternatives -/

section

variable {tables : CaseTables} {flags : Flags} {subject : Subject} {code : List Byte} {info : GroupId → Place}
  {captures nonCaptures : Nat} {opened : List GroupId} {iterators : GroupId → BitVec 32} {bc : Nat}

/-- A part of the code that returns where it stands. -/
theorem return_good {op : Opcode} {bc' : Nat} (hop : getOpcode code bc = some (op, bc'))
    (hreturn : op = .assertEnd ∨ op = .iteratorEnd) :
    Good tables flags subject code info captures nonCaptures opened iterators bc := by
  refine good_of_instruction hop ?_
  intro str st _
  rcases hreturn with rfl | rfl
  · exact reaches_const (Kept.refl st)
  · exact reaches_const (Kept.refl st)

theorem eof_good {bc' : Nat} (hop : getOpcode code bc = some (.eof, bc')) (hcaptures : 0 < captures) :
    Good tables flags subject code info captures nonCaptures opened iterators bc := by
  refine good_of_instruction hop ?_
  intro str st hst
  obtain ⟨st₁, hst₁, hsame₁⟩ := @updateCapture_same st 0 (fun c => { c with endP := some str })
    (by rw [hst.sized.captures_eq]; exact hcaptures) (fun _ => rfl)
  simp only [instruction, hst₁, Option.bind_eq_bind, Option.bind_some]
  exact reaches_const hsame₁.kept

/-- The body of a lookahead is run on its own, with no group open. -/
theorem lookahead_good {negative : Bool} {b1 b2 b3 b4 body : Nat} {qmin : Byte} {start count offset : BitVec 32}
    (hop : getOpcode code bc = some ((if negative then .assertLookaheadNeg else .assertLookaheadPos), b1))
    (hqmin : getByte code b1 = some (qmin, b2)) (hstart : getValue code b2 = some (start, b3))
    (hcount : getValue code b3 = some (count, b4)) (hoffset : getValue code b4 = some (offset, body))
    (hrange : start.toNat + count.toNat ≤ captures)
    (hbody : Good tables flags subject code info captures nonCaptures [] iterators body)
    (hgood : Good tables flags subject code info captures nonCaptures opened iterators (body + offset.toNat)) :
    Good tables flags subject code info captures nonCaptures opened iterators bc := by
  refine good_of_instruction hop ?_
  intro str st hst
  have hnone : Agree info captures nonCaptures [] iterators st := ⟨hst.sized, fun g hg => (List.not_mem_nil hg).elim⟩
  have hall : ∀ {r : Result}, Post info [] st r → Kept info (fun _ => True) st r.2 := fun hpost =>
    Kept.mono hpost fun _ _ => Or.inr List.not_mem_nil
  cases negative with
  | false =>
    show Reaches (fun n => assertLookaheadPos code (ecmaRegexpRun tables flags subject code n) b1 str st) _
    simp only [assertLookaheadPos, hqmin, hstart, hcount, hoffset, Option.bind_eq_bind, Option.bind_some]
    by_cases hzero : qmin = 0#8
    · simp only [if_pos hzero]
      exact reaches_const ⟨Kept.refl st, hgood⟩
    simp only [if_neg hzero]
    refine Reaches.bind (hbody.call hnone str) ?_
    rintro ⟨matched, st₁⟩ hpost
    have hkept := hall hpost
    cases matched with
    | none => exact reaches_const hkept
    | some str' =>
      refine runTail_fine hgood (hst.kept hkept fun _ _ => trivial) (fun _ hg => hg) (hkept.mono fun _ _ => trivial) ?_
      intro st₂ hkept₂
      obtain ⟨st₃, hst₃, hsame₃⟩ := @restoreEnds_same st₂ start.toNat (st.savedEnds start.toNat count.toNat)
        (by rw [length_savedEnds, hkept₂.captures_eq, hkept.captures_eq, hst.sized.captures_eq]; exact hrange)
      simp only [hst₃, Option.bind_some]
      exact reaches_const ((hkept.trans hkept₂).trans hsame₃.kept)
  | true =>
    show Reaches (fun n => assertLookaheadNeg code (ecmaRegexpRun tables flags subject code n) b1 str st) _
    simp only [assertLookaheadNeg, hqmin, hstart, hcount, hoffset, Option.bind_eq_bind, Option.bind_some]
    by_cases hzero : qmin = 0#8
    · simp only [if_pos hzero]
      exact reaches_const ⟨Kept.refl st, hgood⟩
    simp only [if_neg hzero]
    refine Reaches.bind (hbody.call hnone str) ?_
    rintro ⟨matched, st₁⟩ hpost
    have hkept := hall hpost
    cases matched with
    | none => exact reaches_const ⟨hkept, hgood⟩
    | some str' =>
      obtain ⟨st₂, hst₂, hsame₂⟩ := @clearBegins_same st₁ start.toNat count.toNat
        (by rw [hkept.captures_eq, hst.sized.captures_eq]; exact hrange)
      simp only [hst₂, Option.bind_some]
      exact reaches_const (hkept.trans hsame₂.kept)

/-- What follows the alternatives of a body is no alternative. -/
def EndsBody (rest : List Byte) : Prop := ∃ b back, rest = b :: back ∧ b ≠ Opcode.alternativeNext.toByte

/-- The alternatives that are left are skipped. -/
theorem skipAlternatives_at {rest : List Byte} (hcode : code.length < 2 ^ 32) (hrest : EndsBody rest) {unicode : Bool}
    (terms : List Term) (alts : List (List Term)) (steps : Nat) (hsteps : alts.length < steps)
    (h : At code bc (encodeValue (sizeValue (termsBytes unicode terms)) ++ (termsBytes unicode terms ++
      (nextBytes unicode alts ++ rest)))) :
    skipAlternatives code steps bc = some (bc + (encodeValue (sizeValue (termsBytes unicode terms))).length +
      (termsBytes unicode terms).length + (nextBytes unicode alts).length) := by
  induction alts generalizing bc terms steps with
  | nil =>
    obtain ⟨k, rfl⟩ := Nat.exists_eq_succ_of_ne_zero (by omega : steps ≠ 0)
    obtain ⟨b, hvalue, hb, h1⟩ := value_front h
    have hsize := toNat_sizeValue hcode (at_append_iff.mp h1).1
    have h2 := (at_append_iff.mp h1).2
    obtain ⟨e, back, rfl, hne⟩ := hrest
    rw [nextBytes, List.nil_append] at h2
    rw [skipAlternatives, hvalue]
    simp only [Option.bind_eq_bind, Option.bind_some]
    rw [hsize, (at_cons_iff.mp h2).1, Option.bind_some, if_pos hne, hb, nextBytes]
    rfl
  | cons terms' alts ih =>
    obtain ⟨k, rfl⟩ := Nat.exists_eq_succ_of_ne_zero (by omega : steps ≠ 0)
    obtain ⟨b, hvalue, hb, h1⟩ := value_front h
    have hsize := toNat_sizeValue hcode (at_append_iff.mp h1).1
    have h2 := (at_append_iff.mp h1).2
    rw [nextBytes, alternativeBytes, List.cons_append, List.cons_append, List.append_assoc, List.append_assoc] at h2
    rw [List.length_cons] at hsteps
    rw [skipAlternatives, hvalue]
    simp only [Option.bind_eq_bind, Option.bind_some]
    rw [hsize, (at_cons_iff.mp h2).1, Option.bind_some, if_neg (not_not_intro rfl),
      ih terms' k (by omega) (at_cons_iff.mp h2).2, nextBytes, alternativeBytes, List.length_append, List.length_cons,
      List.length_append, hb]
    congr 1
    omega

theorem length_le_nextBytes (unicode : Bool) (alts : List (List Term)) :
    alts.length ≤ (nextBytes unicode alts).length := by
  induction alts with
  | nil => exact Nat.zero_le _
  | cons terms alts ih =>
    rw [nextBytes, alternativeBytes, List.length_append, List.length_cons, List.length_cons]
    omega

/-- From the end of an alternative the matcher goes to the end of the body. -/
theorem alternativeEnd_good {rest : List Byte} (hcode : code.length < 2 ^ 32) (hrest : EndsBody rest)
    (alts : List (List Term)) (h : At code bc (nextBytes flags.unicode alts ++ rest))
    (hgood : Good tables flags subject code info captures nonCaptures opened iterators
      (bc + (nextBytes flags.unicode alts).length)) :
    Good tables flags subject code info captures nonCaptures opened iterators bc := by
  cases alts with
  | nil =>
    rw [nextBytes, List.length_nil, Nat.add_zero] at hgood
    exact hgood
  | cons terms alts =>
    have hlength := h.length_le
    rw [nextBytes, alternativeBytes, List.cons_append, List.cons_append, List.append_assoc, List.append_assoc] at h
    obtain ⟨hop, h1⟩ := opcode_front h
    have hsteps : alts.length < code.length + 1 := by
      have hle := length_le_nextBytes flags.unicode (terms :: alts)
      rw [List.length_append, List.length_drop] at hlength
      rw [List.length_cons] at hle
      omega
    refine good_of_instruction hop ?_
    intro str st _
    simp only [instruction, skipAlternatives_at hcode hrest terms alts _ hsteps h1, Option.bind_eq_bind, Option.bind_some]
    refine reaches_const ⟨Kept.refl st, ?_⟩
    rw [nextBytes, alternativeBytes, List.length_append, List.length_cons, List.length_append] at hgood
    have heq : bc + ((encodeValue (sizeValue (termsBytes flags.unicode terms))).length +
        (termsBytes flags.unicode terms).length + 1 + (nextBytes flags.unicode alts).length) = bc + 1 +
        (encodeValue (sizeValue (termsBytes flags.unicode terms))).length + (termsBytes flags.unicode terms).length +
        (nextBytes flags.unicode alts).length := by omega
    rw [heq] at hgood
    exact hgood

end

/-! ## Patterns -/

section

variable {tables : CaseTables} {flags : Flags} {subject : Subject} {code : List Byte} {info : GroupId → Place}
  {captures nonCaptures : Nat}

mutual

/-- A term is good when what follows it is. -/
theorem term_good (hcode : code.length < 2 ^ 32) (hcaptures : captures ≤ 2 ^ 32) (hnonCaptures : nonCaptures ≤ 2 ^ 32)
    (bc : Nat) (rest : List Byte) (opened : List GroupId) (iterators : GroupId → BitVec 32) (term : Term)
    (hvalid : term.Valid tables flags.unicode captures nonCaptures)
    (hplaces : ∀ x ∈ term.places flags.unicode bc, info x.1 = x.2) (hids : term.ids.Nodup)
    (hopened : ∀ g ∈ term.ids, g ∉ opened) (h : At code bc (term.bytes flags.unicode ++ rest))
    (hgood : Good tables flags subject code info captures nonCaptures opened iterators
      (bc + (term.bytes flags.unicode).length)) :
    Good tables flags subject code info captures nonCaptures opened iterators bc := by
  match term with
  | .assertion a =>
    rw [Term.bytes] at h hgood
    exact assertion_good (opcode_front h).1 hgood
  | .atom atom q =>
    rw [Term.bytes] at h hgood
    rw [Quantifier.iteratorBytes] at h hgood
    by_cases honce : q.qmin = 1#32 ∧ q.qmax = 1#32
    · rw [if_pos honce] at h hgood
      exact atom_good (at_append_iff.mp h).1 hgood
    · rw [if_neg honce] at h hgood
      rw [List.cons_append, List.append_assoc, List.append_assoc, List.append_assoc] at h
      rw [List.length_cons, List.length_append, List.length_append, List.length_append] at hgood
      obtain ⟨hop, h1⟩ := opcode_front h
      obtain ⟨b2, hqmin, hb2, h2⟩ := value_front h1
      obtain ⟨b3, hqmax, hb3, h3⟩ := value_front h2
      obtain ⟨b4, hoffset, hb4, h4⟩ := value_front h3
      have hbody := (at_append_iff.mp h4).1
      have hsize := toNat_sizeValue hcode hbody
      refine iterator_good hop hqmin hqmax hoffset hbody ?_
      rw [hsize]
      have heq : b4 + (atom.bytes flags.unicode ++ [Opcode.iteratorEnd.toByte]).length = bc +
          ((encodeValue q.qmin).length + ((encodeValue (q.qmax + qmaxOffset)).length +
            ((encodeValue (sizeValue (atom.bytes flags.unicode ++ [Opcode.iteratorEnd.toByte]))).length +
              (atom.bytes flags.unicode ++ [Opcode.iteratorEnd.toByte]).length)) + 1) := by omega
      rw [heq]
      exact hgood
  | .backreference idx =>
    rw [Term.Valid] at hvalid
    rw [Term.bytes] at h hgood
    rw [List.cons_append] at h
    rw [List.length_cons] at hgood
    obtain ⟨hop, h1⟩ := opcode_front h
    obtain ⟨b, hvalue, hb, -⟩ := value_front h1
    refine backreference_good hvalid.2 hop hvalue ?_
    rw [hb, Nat.add_assoc, Nat.add_comm 1]
    exact hgood
  | .group g body =>
    rw [Term.Valid] at hvalid
    rw [Term.places] at hplaces
    rw [Term.ids] at hids hopened
    rw [Term.bytes, Group.bytes] at h hgood
    rw [List.append_assoc, List.append_assoc] at h
    rw [List.length_append, List.length_append] at hgood
    obtain ⟨hgroup, hbodyValid⟩ := hvalid
    have hinfo := hplaces _ List.mem_cons_self
    dsimp only at hinfo
    have hnot := hopened _ List.mem_cons_self
    rw [List.nodup_cons] at hids
    obtain ⟨b1, ⟨c1, c2, c3, c4, c5, hop, hidx, hstart, hcount, hqmin, offset, hoffset, hend⟩, hb1, h1⟩ :=
      groupStart_front hcode h
    obtain ⟨b3, ⟨d1, d2, d3, hopEnd, hidxEnd, hqminEnd, hqmaxEnd⟩, hb3, -⟩ :=
      groupEnd_front (at_append_iff.mp h1).2
    have hgood' : Good tables flags subject code info captures nonCaptures opened iterators b3 := by
      have heq : bc + ((g.startBytes (altsBytes flags.unicode body)).length +
          ((altsBytes flags.unicode body).length + g.endBytes.length)) = b3 := by omega
      rw [heq] at hgood
      exact hgood
    rw [← hb1] at hplaces hinfo
    have hbodyPlaces : ∀ x ∈ altsPlaces flags.unicode b1 body, info x.1 = x.2 := fun x hx =>
      hplaces x (List.mem_cons_of_mem _ hx)
    have hbodyOpened : ∀ g' ∈ altsIds body, g' ∉ (g.isCapturing, g.idx) :: opened := by
      intro g' hg' hmem
      rcases List.mem_cons.mp hmem with rfl | hmem
      · exact hids.1 hg'
      · exact hopened g' (List.mem_cons_of_mem _ hg') hmem
    have hends : EndsBody (g.endBytes ++ rest) := by
      refine ⟨_, _, rfl, ?_⟩
      cases g.isCapturing <;> cases g.quantifier.greedy <;> decide
    have hbody : ∀ i, Good tables flags subject code info captures nonCaptures ((g.isCapturing, g.idx) :: opened)
          (Function.update iterators (g.isCapturing, g.idx) i) (b1 + (altsBytes flags.unicode body).length) →
        Good tables flags subject code info captures nonCaptures ((g.isCapturing, g.idx) :: opened)
          (Function.update iterators (g.isCapturing, g.idx) i) b1 := fun i hi =>
      alts_good hcode hcaptures hnonCaptures b1 _ _ _ body hbodyValid hbodyPlaces hids.2 hbodyOpened hends h1 hi
    have hplace : (info (g.isCapturing, g.idx)).bc = b1 := by rw [hinfo]
    have hrange : (info (g.isCapturing, g.idx)).subcaptureStart + (info (g.isCapturing, g.idx)).subcaptureCount ≤
        captures := by
      have hle := hgroup.captures_le
      have hsame := hgroup.capturing
      rw [hinfo]
      have hmod : (BitVec.ofNat 32 g.captureCount).toNat ≤ g.captureCount := Nat.mod_le _ _
      have hmod' : (BitVec.ofNat 32 g.captureStart).toNat ≤ g.captureStart := Nat.mod_le _ _
      dsimp only
      split
      · have := (hsame ‹_›).1
        omega
      · omega
    -- the iterator can be raised only so often
    have hclose : ∀ n i, (i : BitVec 32).toNat + n = 2 ^ 32 - 1 →
        Good tables flags subject code info captures nonCaptures ((g.isCapturing, g.idx) :: opened)
          (Function.update iterators (g.isCapturing, g.idx) i) (b1 + (altsBytes flags.unicode body).length) := by
      intro n
      induction n with
      | zero =>
        intro i hi
        have hbodyNext : i.toNat + 1 < 2 ^ 32 → Good tables flags subject code info captures nonCaptures
            ((g.isCapturing, g.idx) :: opened) (Function.update iterators (g.isCapturing, g.idx) (i + 1#32))
            (info (g.isCapturing, g.idx)).bc := by
          intro hlt
          omega
        exact groupEnd_good hgroup hcaptures hnonCaptures hnot hrange hopEnd hidxEnd hqminEnd hqmaxEnd hgood' hbodyNext
      | succ n ih =>
        intro i hi
        have hbodyNext : i.toNat + 1 < 2 ^ 32 → Good tables flags subject code info captures nonCaptures
            ((g.isCapturing, g.idx) :: opened) (Function.update iterators (g.isCapturing, g.idx) (i + 1#32))
            (info (g.isCapturing, g.idx)).bc := by
          intro hlt
          rw [hplace]
          refine hbody _ (ih _ ?_)
          rw [BitVec.toNat_add, BitVec.toNat_ofNat]
          omega
        exact groupEnd_good hgroup hcaptures hnonCaptures hnot hrange hopEnd hidxEnd hqminEnd hqmaxEnd hgood' hbodyNext
    have hcloseAt : ∀ i, Good tables flags subject code info captures nonCaptures ((g.isCapturing, g.idx) :: opened)
        (Function.update iterators (g.isCapturing, g.idx) i) (b1 + (altsBytes flags.unicode body).length) := by
      intro i
      have := i.isLt
      exact hclose (2 ^ 32 - 1 - i.toNat) i (by omega)
    exact groupStart_good hgroup hcaptures hnonCaptures hnot hop hidx hstart hcount hqmin hoffset hend hinfo
      (hcloseAt 0#32) (hbody 1#32 (hcloseAt 1#32))
  | .lookahead l body =>
    rw [Term.Valid] at hvalid
    rw [Term.places] at hplaces
    rw [Term.ids] at hids
    rw [Term.bytes] at h hgood
    obtain ⟨b1, ⟨c1, c2, c3, c4, offset, hop, hqmin, hstart, hcount, hoffset, hend⟩, hb1, h1⟩ := lookahead_front hcode h
    have hclose := (opcode_front (at_append_iff.mp h1).2).1
    rw [← hb1, Nat.add_sub_cancel] at hplaces
    have hrange : (BitVec.ofNat 32 l.captureStart).toNat + (BitVec.ofNat 32 l.captureCount).toNat ≤ captures := by
      have hmod : (BitVec.ofNat 32 l.captureCount).toNat ≤ l.captureCount := Nat.mod_le _ _
      have hmod' : (BitVec.ofNat 32 l.captureStart).toNat ≤ l.captureStart := Nat.mod_le _ _
      have := hvalid.1
      omega
    have hends : EndsBody (Opcode.assertEnd.toByte :: rest) := ⟨_, _, rfl, by decide⟩
    refine lookahead_good hop hqmin hstart hcount hoffset hrange ?_ ?_
    · exact alts_good hcode hcaptures hnonCaptures b1 _ [] iterators body hvalid.2 hplaces hids
        (fun _ _ => List.not_mem_nil) hends h1 (return_good hclose (Or.inl rfl))
    · rw [hend, hb1]
      exact hgood

theorem terms_good (hcode : code.length < 2 ^ 32) (hcaptures : captures ≤ 2 ^ 32) (hnonCaptures : nonCaptures ≤ 2 ^ 32)
    (bc : Nat) (rest : List Byte) (opened : List GroupId) (iterators : GroupId → BitVec 32) (terms : List Term)
    (hvalid : termsValid tables flags.unicode captures nonCaptures terms)
    (hplaces : ∀ x ∈ termsPlaces flags.unicode bc terms, info x.1 = x.2) (hids : (termsIds terms).Nodup)
    (hopened : ∀ g ∈ termsIds terms, g ∉ opened) (h : At code bc (termsBytes flags.unicode terms ++ rest))
    (hgood : Good tables flags subject code info captures nonCaptures opened iterators
      (bc + (termsBytes flags.unicode terms).length)) :
    Good tables flags subject code info captures nonCaptures opened iterators bc := by
  match terms with
  | [] =>
    rw [termsBytes, List.length_nil, Nat.add_zero] at hgood
    exact hgood
  | term :: terms =>
    rw [termsValid] at hvalid
    rw [termsPlaces] at hplaces
    rw [termsIds] at hids hopened
    rw [termsBytes] at h hgood
    rw [List.append_assoc] at h
    rw [List.length_append, ← Nat.add_assoc] at hgood
    have hterms := terms_good hcode hcaptures hnonCaptures (bc + (term.bytes flags.unicode).length) rest opened iterators
      terms hvalid.2 (fun x hx => hplaces x (List.mem_append_right _ hx)) (List.nodup_append.mp hids).2.1
      (fun g hg => hopened g (List.mem_append_right _ hg)) (at_append_iff.mp h).2 hgood
    exact term_good hcode hcaptures hnonCaptures bc _ opened iterators term hvalid.1
      (fun x hx => hplaces x (List.mem_append_left _ hx)) (List.nodup_append.mp hids).1
      (fun g hg => hopened g (List.mem_append_left _ hg)) h hterms

/-- A body is good when what follows it is. -/
theorem alts_good (hcode : code.length < 2 ^ 32) (hcaptures : captures ≤ 2 ^ 32) (hnonCaptures : nonCaptures ≤ 2 ^ 32)
    (bc : Nat) (rest : List Byte) (opened : List GroupId) (iterators : GroupId → BitVec 32) (alts : List (List Term))
    (hvalid : altsValid tables flags.unicode captures nonCaptures alts)
    (hplaces : ∀ x ∈ altsPlaces flags.unicode bc alts, info x.1 = x.2) (hids : (altsIds alts).Nodup)
    (hopened : ∀ g ∈ altsIds alts, g ∉ opened) (hrest : EndsBody rest)
    (h : At code bc (altsBytes flags.unicode alts ++ rest))
    (hgood : Good tables flags subject code info captures nonCaptures opened iterators
      (bc + (altsBytes flags.unicode alts).length)) :
    Good tables flags subject code info captures nonCaptures opened iterators bc := by
  match alts with
  | [] =>
    rw [altsBytes, List.length_nil, Nat.add_zero] at hgood
    exact hgood
  | [terms] =>
    rw [altsValid] at hvalid
    rw [altsPlaces] at hplaces
    rw [altsIds_single] at hids hopened
    rw [altsBytes] at h hgood
    exact terms_good hcode hcaptures hnonCaptures bc rest opened iterators terms hvalid.1 hplaces hids hopened h hgood
  | terms :: other :: alts =>
    rw [altsValid] at hvalid
    rw [altsPlaces] at hplaces
    rw [altsIds] at hids hopened
    rw [altsBytes] at h hgood
    rw [alternativeBytes] at h hgood hplaces
    rw [List.append_assoc, List.cons_append, List.append_assoc] at h
    rw [List.length_append, List.length_cons, List.length_append] at hgood
    rw [List.length_cons, List.length_append] at hplaces
    obtain ⟨hop, h1⟩ := opcode_front h
    obtain ⟨b2, hvalue, hb2, h2⟩ := value_front h1
    have hsize := toNat_sizeValue hcode (at_append_iff.mp h2).1
    have h3 := (at_append_iff.mp h2).2
    have hend : b2 + (termsBytes flags.unicode terms).length + (nextBytes flags.unicode (other :: alts)).length = bc +
        ((encodeValue (sizeValue (termsBytes flags.unicode terms))).length + (termsBytes flags.unicode terms).length + 1 +
          (nextBytes flags.unicode (other :: alts)).length) := by omega
    rw [← hend] at hgood
    have hstartPlaces : ∀ x ∈ termsPlaces flags.unicode b2 terms, info x.1 = x.2 := by
      intro x hx
      rw [hb2] at hx
      exact hplaces x (List.mem_append_left _ hx)
    have hnextPlaces : ∀ x ∈ nextPlaces flags.unicode (b2 + (termsBytes flags.unicode terms).length) (other :: alts),
        info x.1 = x.2 := by
      intro x hx
      refine hplaces x (List.mem_append_right _ ?_)
      rw [show bc + ((encodeValue (sizeValue (termsBytes flags.unicode terms))).length +
        (termsBytes flags.unicode terms).length + 1) = b2 + (termsBytes flags.unicode terms).length by omega]
      exact hx
    have hterms := terms_good hcode hcaptures hnonCaptures b2 _ opened iterators terms hvalid.1 hstartPlaces
      (List.nodup_append.mp hids).1 (fun g hg => hopened g (List.mem_append_left _ hg)) h2
      (alternativeEnd_good hcode hrest (other :: alts) h3 hgood)
    have hsafe : ∀ strStart, FailSafe tables flags subject code info captures nonCaptures opened iterators strStart
        (some (b2 + (termsBytes flags.unicode terms).length)) := fun strStart =>
      next_safe hcode hcaptures hnonCaptures _ rest opened iterators strStart (other :: alts) hvalid.2 hnextPlaces
        (List.nodup_append.mp hids).2.1 (fun g hg => hopened g (List.mem_append_right _ hg)) hrest h3 hgood
    intro strStart next _ str st hst
    obtain ⟨r, hr, hpost⟩ := hterms strStart _ (hsafe strStart) str st hst
    have hinstruction : Settles (fun n => instruction tables flags subject code
        (ecmaRegexpRun tables flags subject code n) .alternativeStart (bc + 1) str st)
        (.alternatives (b2 + (termsBytes flags.unicode terms).length) b2 str st) := by
      simp only [instruction, hvalue, Option.bind_eq_bind, Option.bind_some, hsize]
      exact settles_const _
    exact ⟨r, LoopRuns.of_instruction hop hinstruction hr, hpost⟩

/-- After a failure the matcher goes on with the alternatives that are left. -/
theorem next_safe (hcode : code.length < 2 ^ 32) (hcaptures : captures ≤ 2 ^ 32) (hnonCaptures : nonCaptures ≤ 2 ^ 32)
    (bc : Nat) (rest : List Byte) (opened : List GroupId) (iterators : GroupId → BitVec 32) (strStart : Nat)
    (alts : List (List Term)) (hvalid : altsValid tables flags.unicode captures nonCaptures alts)
    (hplaces : ∀ x ∈ nextPlaces flags.unicode bc alts, info x.1 = x.2) (hids : (altsIds alts).Nodup)
    (hopened : ∀ g ∈ altsIds alts, g ∉ opened) (hrest : EndsBody rest)
    (h : At code bc (nextBytes flags.unicode alts ++ rest))
    (hgood : Good tables flags subject code info captures nonCaptures opened iterators
      (bc + (nextBytes flags.unicode alts).length)) :
    FailSafe tables flags subject code info captures nonCaptures opened iterators strStart (some bc) := by
  match alts with
  | [] =>
    obtain ⟨b, back, rfl, hne⟩ := hrest
    rw [nextBytes, List.nil_append] at h
    exact ⟨b, bc + 1, getByte_at h, Or.inl hne⟩
  | terms :: alts =>
    rw [altsValid] at hvalid
    rw [nextPlaces] at hplaces
    rw [altsIds] at hids hopened
    rw [nextBytes] at h hgood
    rw [alternativeBytes] at h hgood hplaces
    rw [List.append_assoc, List.cons_append, List.append_assoc] at h
    rw [List.length_append, List.length_cons, List.length_append] at hgood
    rw [List.length_cons, List.length_append] at hplaces
    obtain ⟨hop, h1⟩ := byte_front h
    obtain ⟨b2, hvalue, hb2, h2⟩ := value_front h1
    have hsize := toNat_sizeValue hcode (at_append_iff.mp h2).1
    have h3 := (at_append_iff.mp h2).2
    have hend : b2 + (termsBytes flags.unicode terms).length + (nextBytes flags.unicode alts).length = bc +
        ((encodeValue (sizeValue (termsBytes flags.unicode terms))).length + (termsBytes flags.unicode terms).length + 1 +
          (nextBytes flags.unicode alts).length) := by omega
    rw [← hend] at hgood
    have hstartPlaces : ∀ x ∈ termsPlaces flags.unicode b2 terms, info x.1 = x.2 := by
      intro x hx
      rw [hb2] at hx
      exact hplaces x (List.mem_append_left _ hx)
    have hnextPlaces : ∀ x ∈ nextPlaces flags.unicode (b2 + (termsBytes flags.unicode terms).length) alts,
        info x.1 = x.2 := by
      intro x hx
      refine hplaces x (List.mem_append_right _ ?_)
      rw [show bc + ((encodeValue (sizeValue (termsBytes flags.unicode terms))).length +
        (termsBytes flags.unicode terms).length + 1) = b2 + (termsBytes flags.unicode terms).length by omega]
      exact hx
    have hterms := terms_good hcode hcaptures hnonCaptures b2 _ opened iterators terms hvalid.1 hstartPlaces
      (List.nodup_append.mp hids).1 (fun g hg => hopened g (List.mem_append_left _ hg)) h2
      (alternativeEnd_good hcode hrest alts h3 hgood)
    have hsafe := next_safe hcode hcaptures hnonCaptures _ rest opened iterators strStart alts hvalid.2 hnextPlaces
      (List.nodup_append.mp hids).2.1 (fun g hg => hopened g (List.mem_append_right _ hg)) hrest h3 hgood
    refine ⟨_, _, hop, Or.inr ⟨rfl, _, _, hvalue, ?_⟩⟩
    intro st hst
    rw [hsize]
    exact hterms strStart _ hsafe strStart st hst

end

/-- A run of the matcher on the byte code of a pattern ends, from any address and whatever is in the tables. -/
theorem ecmaRegexpRun_terminates {heap : Heap} {us : List CodeUnit} {compiled : CompiledCode}
    (hsize : (cesu8 us).length < 2 ^ 32) (h : reCompileBytecode tables heap (cesu8 us) flags = .ok compiled)
    (subject : Subject) (str : Nat) (st : Matcher) (hcaptures : st.captures.length = compiled.capturesCount)
    (hnonCaptures : st.nonCaptures.length = compiled.nonCapturesCount) :
    ∃ depth result, ∀ n, depth ≤ n → ecmaRegexpRun tables flags subject compiled.code n 0 str st = some result := by
  obtain ⟨alts, p, htree, -, hcode, hlt, hcount, hnonCount, -⟩ := reCompileBytecode_layout h
  have hcapturesCount := parseTree_count htree
  have hgroups := scanUnits_le false us
  have hunits := length_le_cesu8 us
  rw [reCountGroups_cesu8] at hcapturesCount
  have hnodup : ((altsPlaces flags.unicode 0 alts).map Prod.fst).Nodup := by
    rw [altsPlaces_ids]
    exact parseTree_ids htree
  obtain ⟨info, hinfo⟩ := exists_info hnodup
  have hat : At compiled.code 0 (altsBytes flags.unicode alts ++ [Opcode.eof.toByte]) := by
    rw [hcode, At, List.drop_zero]
  have heof : Good tables flags subject compiled.code info p.capturesCount p.nonCapturesCount [] (fun _ => 0#32)
      (0 + (altsBytes flags.unicode alts).length) :=
    eof_good (getOpcode_at (at_append_iff.mp hat).2) (by omega)
  have hgood := alts_good hlt (by omega) (Nat.le_of_lt (Nat.lt_of_le_of_lt (parseTree_nonCaptures htree) hsize)) 0 _ []
    (fun _ => 0#32) alts (parseTree_valid htree) hinfo (parseTree_ids htree) (fun _ _ => List.not_mem_nil)
    ⟨_, _, rfl, by decide⟩ hat heof
  have hst : Agree info p.capturesCount p.nonCapturesCount [] (fun _ => 0#32) st :=
    ⟨⟨hcaptures.trans hcount, hnonCaptures.trans hnonCount⟩, fun g hg => (List.not_mem_nil hg).elim⟩
  obtain ⟨result, ⟨depth, hdepth⟩, -⟩ := hgood.call hst str
  exact ⟨depth, result, hdepth⟩

/-- `/(?:a+|b)*/` on the input `aa`. -/
theorem ecmaRegexpRun_terminates_nested :
    ∃ depth result, ∀ n, depth ≤ n → ecmaRegexpRun asciiTables {} (inputAt8 [0x61#8, 0x61#8]) nestedCode.code n 0 8
      ⟨[⟨some 8, none, 0, 0#32, 0#32⟩], [⟨none, 0, 0#32, 0#32, 0#32⟩]⟩ = some result :=
  @ecmaRegexpRun_terminates asciiTables {} wideHeap nestedPattern nestedCode (by decide) rfl _ 8 _ rfl rfl

end

end Regexp
end JJS
