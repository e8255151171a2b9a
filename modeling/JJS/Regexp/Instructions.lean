import JJS.Regexp.Safe

/-!
# JJS.Regexp.Instructions

The instructions of a pattern go from good positions to good ones. A character iterator calls its atom, which leaves the
groups alone. The end of a group calls the body again, with the next number of the iteration.
-/

namespace JJS
namespace Regexp

open Utf8 Lit Strings Fuel

section

variable {tables : CaseTables} {flags : Flags} {subject : Subject} {code : List Byte} {info : GroupId → Place}
  {captures nonCaptures : Nat} {opened : List GroupId} {iterators : GroupId → BitVec 32} {bc : Nat}

/-! ## Atoms -/

theorem atom_good {atom : Atom} (h : At code bc (atom.bytes flags.unicode))
    (hgood : Good tables flags subject code info captures nonCaptures opened iterators
      (bc + (atom.bytes flags.unicode).length)) :
    Good tables flags subject code info captures nonCaptures opened iterators bc := by
  obtain ⟨op, hop, -⟩ := @Atom.instruction_at tables flags subject code bc atom h (fun _ _ _ => none) 0 ⟨[], []⟩
  refine good_of_instruction hop ?_
  intro str st hst
  refine ⟨atom.outcome tables flags subject bc str st, ⟨0, ?_⟩, ?_⟩
  · intro n _
    obtain ⟨op', hop', hinstruction⟩ :=
      @Atom.instruction_at tables flags subject code bc atom h (ecmaRegexpRun tables flags subject code n) str st
    rw [hop, Option.some.injEq, Prod.mk.injEq] at hop'
    rw [← hop'.1] at hinstruction
    exact hinstruction
  · rw [Atom.outcome]
    split
    · exact Kept.refl st
    · split
      · exact ⟨Kept.refl st, hgood⟩
      · exact Kept.refl st

/-- The atom of an iterator is called and comes back, and the groups are as they were. -/
theorem atom_call {atom : Atom} (h : At code bc (atom.bytes flags.unicode ++ [Opcode.iteratorEnd.toByte])) (str : Nat)
    (st : Matcher) :
    ∃ matched, Settles (fun n => ecmaRegexpRun tables flags subject code n bc str st) (matched, st) := by
  obtain ⟨hatom, hend⟩ := at_append_iff.mp h
  obtain ⟨op, hop, -⟩ := @Atom.instruction_at tables flags subject code bc atom hatom (fun _ _ _ => none) 0 ⟨[], []⟩
  have hinstruction : Settles (fun n => instruction tables flags subject code
      (ecmaRegexpRun tables flags subject code n) op (bc + 1) str st) (atom.outcome tables flags subject bc str st) := by
    refine ⟨0, ?_⟩
    intro n _
    obtain ⟨op', hop', hinstruction⟩ := @Atom.instruction_at tables flags subject code bc atom hatom
      (ecmaRegexpRun tables flags subject code n) str st
    rw [hop, Option.some.injEq, Prod.mk.injEq] at hop'
    rw [← hop'.1] at hinstruction
    exact hinstruction
  have hnext : ∃ r, NextRuns tables flags subject code str none (atom.outcome tables flags subject bc str st) r := by
    rw [Atom.outcome]
    split
    · exact ⟨(none, st), rfl⟩
    · split
      · exact ⟨_, LoopRuns.of_instruction (getOpcode_at hend)
          (settles_const (Next.return (some (atom.next tables flags subject str)) st)) rfl⟩
      · exact ⟨(none, st), rfl⟩
  obtain ⟨r, hr⟩ := hnext
  have hsettles := (LoopRuns.of_instruction hop hinstruction hr).call
  obtain ⟨n, hn⟩ := hsettles
  have hrun := Atom.run_at h (hn n (Nat.le_refl n))
  rw [hrun] at hn
  exact ⟨_, n, hn⟩

/-! ## Character iterators -/

theorem iterateAtom_settles {atom : Atom}
    (h : At code bc (atom.bytes flags.unicode ++ [Opcode.iteratorEnd.toByte])) (count str : Nat) (st : Matcher) :
    ∃ matched, Settles (fun n => iterateAtom (ecmaRegexpRun tables flags subject code n) bc count str st)
      (matched, st) := by
  induction count generalizing str with
  | zero => exact ⟨some str, settles_const _⟩
  | succ count ih =>
    obtain ⟨matched, hcall⟩ := @atom_call tables flags subject code bc atom h str st
    cases matched with
    | none => exact ⟨none, hcall.bind (settles_const _)⟩
    | some str' =>
      obtain ⟨matched, hrest⟩ := ih str'
      exact ⟨matched, hcall.bind hrest⟩

theorem iterateGreedy_settles {atom : Atom}
    (h : At code bc (atom.bytes flags.unicode ++ [Opcode.iteratorEnd.toByte])) (count str iterator : Nat)
    (st : Matcher) :
    ∃ str' iterator', Settles
      (fun n => iterateGreedy (ecmaRegexpRun tables flags subject code n) bc count str iterator st)
      (str', iterator', st) := by
  induction count generalizing str iterator with
  | zero => exact ⟨str, iterator, settles_const _⟩
  | succ count ih =>
    obtain ⟨matched, hcall⟩ := @atom_call tables flags subject code bc atom h str st
    cases matched with
    | none => exact ⟨str, iterator, hcall.bind (settles_const _)⟩
    | some str' =>
      obtain ⟨str'', iterator', hrest⟩ := ih str' (iterator + 1)
      exact ⟨str'', iterator', hcall.bind hrest⟩

variable {st st' : Matcher}

/-- The tail is called at every address, as long as there is no match. -/
theorem stepBackTails_fine (hgood : Good tables flags subject code info captures nonCaptures opened iterators bc)
    (count str : Nat) (hst' : Agree info captures nonCaptures opened iterators st')
    (hkept : Kept info (fun _ => True) st st') :
    Reaches (fun n => stepBackTails flags subject (ecmaRegexpRun tables flags subject code n) bc count str st')
      (Fine tables flags subject code info captures nonCaptures opened iterators st) := by
  induction count generalizing str st' with
  | zero =>
    refine runTail_fine hgood hst' (fun _ hg => hg) (hkept.mono fun _ _ => trivial) ?_
    intro st'' hkept'
    exact reaches_const (hkept.trans hkept')
  | succ count ih =>
    refine runTail_fine hgood hst' (fun _ hg => hg) (hkept.mono fun _ _ => trivial) ?_
    intro st'' hkept'
    exact ih _ (hst'.kept hkept' fun _ _ => trivial) (hkept.trans hkept')

theorem iterateLazy_fine {atom : Atom} {tail : Nat}
    (h : At code bc (atom.bytes flags.unicode ++ [Opcode.iteratorEnd.toByte]))
    (hgood : Good tables flags subject code info captures nonCaptures opened iterators tail) (count str : Nat)
    (hst' : Agree info captures nonCaptures opened iterators st') (hkept : Kept info (fun _ => True) st st') :
    Reaches (fun n => iterateLazy (ecmaRegexpRun tables flags subject code n) bc tail count str st')
      (Fine tables flags subject code info captures nonCaptures opened iterators st) := by
  induction count generalizing str st' with
  | zero =>
    refine runTail_fine hgood hst' (fun _ hg => hg) (hkept.mono fun _ _ => trivial) ?_
    intro st'' hkept'
    exact reaches_const (hkept.trans hkept')
  | succ count ih =>
    refine runTail_fine hgood hst' (fun _ hg => hg) (hkept.mono fun _ _ => trivial) ?_
    intro st'' hkept'
    obtain ⟨matched, hcall⟩ := @atom_call tables flags subject code bc atom h str st''
    refine Reaches.bind ⟨_, hcall, rfl⟩ ?_
    rintro ⟨matched', st₃⟩ heq
    cases heq
    cases matched with
    | none => exact reaches_const (hkept.trans hkept')
    | some str' => exact ih str' (hst'.kept hkept' fun _ _ => trivial) (hkept.trans hkept')

/-- A character iterator. -/
theorem iterator_good {atom : Atom} {greedy : Bool} {b1 b2 b3 b4 : Nat} {qmin qmax offset : BitVec 32}
    (hop : getOpcode code bc = some ((if greedy then .greedyIterator else .lazyIterator), b1))
    (hqmin : getValue code b1 = some (qmin, b2)) (hqmax : getValue code b2 = some (qmax, b3))
    (hoffset : getValue code b3 = some (offset, b4))
    (h : At code b4 (atom.bytes flags.unicode ++ [Opcode.iteratorEnd.toByte]))
    (hgood : Good tables flags subject code info captures nonCaptures opened iterators (b4 + offset.toNat)) :
    Good tables flags subject code info captures nonCaptures opened iterators bc := by
  refine good_of_instruction hop ?_
  intro str st hst
  obtain ⟨matched, hmatched⟩ := @iterateAtom_settles tables flags subject code b4 atom h qmin.toNat str st
  cases greedy with
  | true =>
    show Reaches (fun n => greedyIterator flags subject code (ecmaRegexpRun tables flags subject code n) b1 str st) _
    simp only [greedyIterator, hqmin, hqmax, hoffset, Option.bind_eq_bind, Option.bind_some]
    refine Reaches.bind ⟨_, hmatched, rfl⟩ ?_
    rintro ⟨matched', st₁⟩ heq
    cases heq
    cases matched with
    | none => exact reaches_const (Kept.refl st)
    | some str' =>
      obtain ⟨str'', iterator, hgreedy⟩ := @iterateGreedy_settles tables flags subject code b4 atom h
        ((qmax - qmaxOffset).toNat - qmin.toNat) str' qmin.toNat st
      refine Reaches.bind ⟨_, hgreedy, rfl⟩ ?_
      rintro ⟨str₁, iterator₁, st₁⟩ heq
      cases heq
      exact stepBackTails_fine hgood _ _ hst (Kept.refl st)
  | false =>
    show Reaches (fun n => lazyIterator code (ecmaRegexpRun tables flags subject code n) b1 str st) _
    simp only [lazyIterator, hqmin, hqmax, hoffset, Option.bind_eq_bind, Option.bind_some]
    refine Reaches.bind ⟨_, hmatched, rfl⟩ ?_
    rintro ⟨matched', st₁⟩ heq
    cases heq
    cases matched with
    | none => exact reaches_const (Kept.refl st)
    | some str' => exact iterateLazy_fine h hgood _ _ hst (Kept.refl st)

/-! ## Assertions and backreferences -/

theorem assertion_good {a : Assertion} {bc' : Nat} (hop : getOpcode code bc = some (a.opcode, bc'))
    (hgood : Good tables flags subject code info captures nonCaptures opened iterators bc') :
    Good tables flags subject code info captures nonCaptures opened iterators bc := by
  refine good_of_instruction hop ?_
  intro str st hst
  have hgoOn : ∀ str', Fine tables flags subject code info captures nonCaptures opened iterators st
      (.goOn bc' str' st) := fun _ => ⟨Kept.refl st, hgood⟩
  have hfail : Fine tables flags subject code info captures nonCaptures opened iterators st (.fail st) := Kept.refl st
  cases a with
  | lineStart =>
    refine reaches_const ?_
    rw [assertLineStart]
    split
    · exact hgoOn str
    · split
      · exact hfail
      · exact hgoOn str
  | lineEnd =>
    refine reaches_const ?_
    rw [assertLineEnd]
    split
    · exact hgoOn str
    · split
      · exact hfail
      · exact hgoOn str
  | wordBoundary =>
    refine reaches_const ?_
    split
    · exact hgoOn str
    · exact hfail
  | notWordBoundary =>
    refine reaches_const ?_
    split
    · exact hfail
    · exact hgoOn str

theorem backreference_good {idx : BitVec 32} {b1 bc' : Nat} (hidx : idx.toNat < captures)
    (hop : getOpcode code bc = some (.backreference, b1)) (hvalue : getValue code b1 = some (idx, bc'))
    (hgood : Good tables flags subject code info captures nonCaptures opened iterators bc') :
    Good tables flags subject code info captures nonCaptures opened iterators bc := by
  refine good_of_instruction hop ?_
  intro str st hst
  have hgoOn : ∀ str', Fine tables flags subject code info captures nonCaptures opened iterators st
      (.goOn bc' str' st) := fun _ => ⟨Kept.refl st, hgood⟩
  have hlt : idx.toNat < st.captures.length := by
    rw [hst.sized.captures_eq]
    exact hidx
  have hget := List.getElem?_eq_getElem hlt
  show Reaches (fun _ => backreference subject code b1 str st) _
  rw [backreference, hvalue]
  simp only [Option.bind_eq_bind, Option.bind_some]
  rw [hget]
  simp only [Option.bind_some]
  split
  · split
    · exact reaches_const (hgoOn _)
    · split
      · exact reaches_const (Kept.refl st)
      · exact reaches_const (hgoOn _)
  · exact reaches_const (hgoOn _)

end

end Regexp
end JJS
