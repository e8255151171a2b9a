import JJS.Lib.Fuel
import JJS.Regexp.Decode
import JJS.Regexp.Records

/-!
# JJS.Regexp.Safe

Positions of the byte code from which every run ends (`Good`). A run that finds no match gives all iterators back; one
that finds a match may leave those of the open groups behind, and their starts give them back. Every instruction of an
accepted pattern goes from good positions to good ones.
-/

namespace JJS
namespace Regexp

open Utf8 Lit Strings Fuel

/-! ## Runs of the loop -/

section

variable (tables : CaseTables) (flags : Flags) (subject : Subject) (code : List Byte)

/-- The loop ends with a result, whatever the bounds are from some on. -/
def LoopRuns (strStart : Nat) (next : Option Nat) (bc str : Nat) (st : Matcher) (r : Result) : Prop :=
  ∃ n, ∀ depth steps, n ≤ depth → n ≤ steps →
    runLoop tables flags subject code (ecmaRegexpRun tables flags subject code depth) strStart steps next bc str st =
      some r

/-- What the loop makes of a failure. -/
def FailRuns (strStart : Nat) (next : Option Nat) (st : Matcher) (r : Result) : Prop :=
  match next with
  | none => r = (none, st)
  | some bc =>
    ∃ b bc', getByte code bc = some (b, bc') ∧
      (b ≠ Opcode.alternativeNext.toByte ∧ r = (none, st) ∨
        b = Opcode.alternativeNext.toByte ∧ ∃ offset bc'', getValue code bc' = some (offset, bc'') ∧
          LoopRuns tables flags subject code strStart (some (bc'' + offset.toNat)) bc'' strStart st r)

/-- What the loop makes of an instruction. -/
def NextRuns (strStart : Nat) (next : Option Nat) (nxt : Next) (r : Result) : Prop :=
  match nxt with
  | .goOn bc str st => LoopRuns tables flags subject code strStart next bc str st r
  | .alternatives nextAlternative bc str st =>
    LoopRuns tables flags subject code strStart (some nextAlternative) bc str st r
  | .return matched st => r = (matched, st)
  | .fail st => FailRuns tables flags subject code strStart next st r

variable {tables flags subject code}

/-- The loop behind an instruction. -/
def onNext (tables : CaseTables) (flags : Flags) (subject : Subject) (code : List Byte) (call : Call)
    (strStart steps : Nat) (next : Option Nat) : Next → Option Result
  | .goOn bc str st => runLoop tables flags subject code call strStart steps next bc str st
  | .alternatives nextAlternative bc str st =>
    runLoop tables flags subject code call strStart steps (some nextAlternative) bc str st
  | .return matched st => some (matched, st)
  | .fail st =>
    match next with
    | none => some (none, st)
    | some bc => do
      let (op, bc) ← getByte code bc
      if op ≠ Opcode.alternativeNext.toByte then some (none, st)
      else do
        let (offset, bc) ← getValue code bc
        runLoop tables flags subject code call strStart steps (some (bc + offset.toNat)) bc strStart st

theorem runLoop_succ {call : Call} {strStart steps bc bc' str : Nat} {next : Option Nat} {op : Opcode} {st : Matcher}
    (hop : getOpcode code bc = some (op, bc')) :
    runLoop tables flags subject code call strStart (steps + 1) next bc str st =
      (instruction tables flags subject code call op bc' str st).bind
        (onNext tables flags subject code call strStart steps next) := by
  rw [runLoop, hop, Option.bind_eq_bind, Option.bind_some]
  refine Option.bind_congr ?_
  intro nxt _
  cases nxt <;> rfl

theorem NextRuns.settles {strStart : Nat} {next : Option Nat} {nxt : Next} {r : Result}
    (h : NextRuns tables flags subject code strStart next nxt r) :
    ∃ m, ∀ depth steps, m ≤ depth → m ≤ steps →
      onNext tables flags subject code (ecmaRegexpRun tables flags subject code depth) strStart steps next nxt =
        some r := by
  cases nxt with
  | goOn bc str st => exact h
  | alternatives nextAlternative bc str st => exact h
  | «return» matched st => exact ⟨0, fun _ _ _ _ => congrArg some (Eq.symm h)⟩
  | fail st =>
    cases next with
    | none => exact ⟨0, fun _ _ _ _ => congrArg some (Eq.symm h)⟩
    | some bc =>
      obtain ⟨b, bc', hbyte, hcase⟩ := h
      rcases hcase with ⟨hne, hr⟩ | ⟨heq, offset, bc'', hvalue, m, hm⟩
      · refine ⟨0, ?_⟩
        intro depth steps _ _
        rw [onNext]
        dsimp only
        rw [hbyte]
        simp only [Option.bind_eq_bind, Option.bind_some]
        rw [if_pos hne, hr]
      · refine ⟨m, ?_⟩
        intro depth steps hdepth hsteps
        rw [onNext]
        dsimp only
        rw [hbyte]
        simp only [Option.bind_eq_bind, Option.bind_some]
        rw [if_neg (not_not_intro heq), hvalue]
        exact hm depth steps hdepth hsteps

theorem LoopRuns.of_instruction {strStart bc bc' str : Nat} {next : Option Nat} {op : Opcode} {st : Matcher} {nxt : Next}
    {r : Result} (hop : getOpcode code bc = some (op, bc'))
    (hinstruction : Settles (fun n => instruction tables flags subject code
      (ecmaRegexpRun tables flags subject code n) op bc' str st) nxt)
    (hnext : NextRuns tables flags subject code strStart next nxt r) :
    LoopRuns tables flags subject code strStart next bc str st r := by
  obtain ⟨n, hn⟩ := hinstruction
  obtain ⟨m, hm⟩ := hnext.settles
  refine ⟨max n (m + 1), ?_⟩
  intro depth steps hdepth hsteps
  obtain ⟨k, rfl⟩ := Nat.exists_eq_succ_of_ne_zero (by omega : steps ≠ 0)
  have hrun := hn depth (by omega)
  dsimp only at hrun
  rw [runLoop_succ hop, hrun, Option.bind_some]
  exact hm depth k (by omega) (by omega)

/-- A loop without another alternative is a call. -/
theorem LoopRuns.call {bc str : Nat} {st : Matcher} {r : Result}
    (h : LoopRuns tables flags subject code str none bc str st r) :
    Settles (fun n => ecmaRegexpRun tables flags subject code n bc str st) r := by
  obtain ⟨n, hn⟩ := h
  refine ⟨n + 1, ?_⟩
  intro m hm
  obtain ⟨k, rfl⟩ := Nat.exists_eq_succ_of_ne_zero (by omega : m ≠ 0)
  dsimp only
  rw [ecmaRegexpRun_succ]
  exact hn k (k + 1) (by omega) (by omega)

end

/-! ## Good positions -/

section

variable (tables : CaseTables) (flags : Flags) (subject : Subject) (code : List Byte) (info : GroupId → Place)
  (captures nonCaptures : Nat) (opened : List GroupId) (iterators : GroupId → BitVec 32)

/-- What a run comes back with. -/
def Post (st : Matcher) (r : Result) : Prop := Kept info (fun g => r.1 = none ∨ g ∉ opened) st r.2

/-- The loop ends, and gives back what it has to. -/
def LoopEnds (strStart : Nat) (next : Option Nat) (bc str : Nat) (st : Matcher) : Prop :=
  ∃ r, LoopRuns tables flags subject code strStart next bc str st r ∧ Post info opened st r

/-- The loop can go on after a failure. -/
def FailSafe (strStart : Nat) (next : Option Nat) : Prop :=
  match next with
  | none => True
  | some bc =>
    ∃ b bc', getByte code bc = some (b, bc') ∧
      (b ≠ Opcode.alternativeNext.toByte ∨
        b = Opcode.alternativeNext.toByte ∧ ∃ offset bc'', getValue code bc' = some (offset, bc'') ∧
          ∀ st, Agree info captures nonCaptures opened iterators st →
            LoopEnds tables flags subject code info opened strStart (some (bc'' + offset.toNat)) bc'' strStart st)

/-- The loop ends from here, with these groups open. -/
def Good (bc : Nat) : Prop :=
  ∀ strStart next, FailSafe tables flags subject code info captures nonCaptures opened iterators strStart next →
    ∀ str st, Agree info captures nonCaptures opened iterators st →
      LoopEnds tables flags subject code info opened strStart next bc str st

/-- What an instruction goes on with is good. -/
def Fine (st : Matcher) : Next → Prop
  | .goOn bc _ st' =>
    Kept info (fun _ => True) st st' ∧ Good tables flags subject code info captures nonCaptures opened iterators bc
  | .alternatives _ _ _ _ => False
  | .fail st' => Kept info (fun _ => True) st st'
  | .return matched st' => Post info opened st (matched, st')

variable {tables flags subject code info captures nonCaptures opened iterators} {opened' : List GroupId}
  {iterators' : GroupId → BitVec 32} {st st' : Matcher}

theorem Post.before (hkept : Kept info (fun _ => True) st st') {r : Result} (h : Post info opened st' r) :
    Post info opened st r := by
  refine Kept.trans (hkept.mono ?_) h
  intro _ _
  exact trivial

theorem Fine.before {nxt : Next} (h : Fine tables flags subject code info captures nonCaptures opened iterators st' nxt)
    (hkept : Kept info (fun _ => True) st st') :
    Fine tables flags subject code info captures nonCaptures opened iterators st nxt := by
  cases nxt with
  | goOn bc str st'' => exact ⟨hkept.trans h.1, h.2⟩
  | alternatives nextAlternative bc str st'' => exact h.elim
  | fail st'' => exact hkept.trans h
  | «return» matched st'' => exact Post.before hkept h

/-- After a failure with all iterators given back the loop ends. -/
theorem FailSafe.fails {strStart : Nat} {next : Option Nat}
    (h : FailSafe tables flags subject code info captures nonCaptures opened iterators strStart next)
    (hst : Agree info captures nonCaptures opened iterators st) :
    ∃ r, FailRuns tables flags subject code strStart next st r ∧ Post info opened st r := by
  cases next with
  | none => exact ⟨(none, st), rfl, Kept.refl st⟩
  | some bc =>
    obtain ⟨b, bc', hbyte, hcase⟩ := h
    rcases hcase with hne | ⟨heq, offset, bc'', hvalue, hloop⟩
    · exact ⟨(none, st), ⟨b, bc', hbyte, Or.inl ⟨hne, rfl⟩⟩, Kept.refl st⟩
    · obtain ⟨r, hr, hpost⟩ := hloop st hst
      exact ⟨r, ⟨b, bc', hbyte, Or.inr ⟨heq, offset, bc'', hvalue, hr⟩⟩, hpost⟩

/-- An instruction that only goes on with what is good is good. -/
theorem good_of_instruction {bc bc' : Nat} {op : Opcode} (hop : getOpcode code bc = some (op, bc'))
    (h : ∀ str st, Agree info captures nonCaptures opened iterators st →
      Reaches (fun n => instruction tables flags subject code (ecmaRegexpRun tables flags subject code n) op bc' str st)
        (Fine tables flags subject code info captures nonCaptures opened iterators st)) :
    Good tables flags subject code info captures nonCaptures opened iterators bc := by
  intro strStart next hnext str st hst
  obtain ⟨nxt, hinstruction, hfine⟩ := h str st hst
  cases nxt with
  | goOn bc₁ str₁ st₁ =>
    obtain ⟨hkept, hgood⟩ := hfine
    obtain ⟨r, hr, hpost⟩ := hgood strStart next hnext str₁ st₁ (hst.kept hkept fun _ _ => trivial)
    exact ⟨r, LoopRuns.of_instruction hop hinstruction hr, hpost.before hkept⟩
  | alternatives nextAlternative bc₁ str₁ st₁ => exact hfine.elim
  | fail st₁ =>
    have hkept : Kept info (fun _ => True) st st₁ := hfine
    obtain ⟨r, hr, hpost⟩ := hnext.fails (hst.kept hkept fun _ _ => trivial)
    exact ⟨r, LoopRuns.of_instruction hop hinstruction hr, hpost.before hkept⟩
  | «return» matched st₁ => exact ⟨(matched, st₁), LoopRuns.of_instruction hop hinstruction rfl, hfine⟩

/-- A call of a good position comes back. -/
theorem Good.call {bc : Nat} (h : Good tables flags subject code info captures nonCaptures opened iterators bc)
    (hst : Agree info captures nonCaptures opened iterators st) (str : Nat) :
    Reaches (fun n => ecmaRegexpRun tables flags subject code n bc str st) (Post info opened st) := by
  obtain ⟨r, hr, hpost⟩ := h str none trivial str st hst
  exact ⟨r, hr.call, hpost⟩

/-- A call whose match is returned, and whose failure is left to what follows. -/
theorem runTail_fine {bc str : Nat} {otherwise : Nat → Matcher → Option Next}
    (h : Good tables flags subject code info captures nonCaptures opened' iterators' bc)
    (hst' : Agree info captures nonCaptures opened' iterators' st') (hopened : ∀ g ∈ opened', g ∈ opened)
    (hkept : Kept info (fun g => g ∉ opened) st st')
    (hotherwise : ∀ st'', Kept info (fun _ => True) st' st'' → Reaches (fun n => otherwise n st'')
      (Fine tables flags subject code info captures nonCaptures opened iterators st)) :
    Reaches (fun n => runTail (ecmaRegexpRun tables flags subject code n) bc str st' (otherwise n))
      (Fine tables flags subject code info captures nonCaptures opened iterators st) := by
  refine Reaches.bind (h.call hst' str) ?_
  rintro ⟨matched, st''⟩ hpost
  cases matched with
  | none =>
    refine hotherwise st'' (Kept.mono hpost ?_)
    intro _ _
    exact Or.inl rfl
  | some str' =>
    refine reaches_const ?_
    refine Kept.mono (hkept.trans (Kept.mono hpost ?_)) ?_
    · intro g hg
      exact Or.inr fun hmem => hg (hopened g hmem)
    · intro g hg
      rcases hg with hnone | hnot
      · cases hnone
      · exact hnot

end

end Regexp
end JJS
