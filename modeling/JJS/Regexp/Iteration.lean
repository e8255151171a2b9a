import JJS.Regexp.Instructions

/-!
# JJS.Regexp.Iteration

The start and the end of a group. An iteration below the minimum or below the maximum adds one to the iterator, which
therefore does not wrap around; after a failure it is taken away again.
-/

namespace JJS
namespace Regexp

open Utf8 Lit Strings Fuel Matcher

section

variable {tables : CaseTables} {flags : Flags} {subject : Subject} {code : List Byte} {info : GroupId → Place}
  {captures nonCaptures : Nat} {opened : List GroupId} {iterators : GroupId → BitVec 32} {st st' st'' st₃ : Matcher}
  {g : GroupId} {i : BitVec 32} {bc str : Nat}

/-! ## The iterator -/

/-- `++iterator` -/
def Record.next (r : Record) : Record := ⟨r.place, r.iterator + 1#32⟩

/-- `--iterator` -/
def Record.previous (r : Record) : Record := ⟨r.place, r.iterator - 1#32⟩

theorem iterate_agree (hnot : g ∉ opened)
    (hst : Agree info captures nonCaptures (g :: opened) (Function.update iterators g i) st)
    (hnext : Updated st st' g Record.next) :
    Agree info captures nonCaptures (g :: opened) (Function.update iterators g (i + 1#32)) st' := by
  have hrecord := hst.record_eq g List.mem_cons_self
  rw [Function.update_self] at hrecord
  exact (hst.tail hnot).cons hnot hrecord hnext rfl

/-- After an iteration without a match the iterator is what it was. -/
theorem iterate_kept (hst : Agree info captures nonCaptures (g :: opened) (Function.update iterators g i) st)
    (hnext : Updated st st' g Record.next) (hkept : Kept info (fun _ => True) st' st'')
    (hprevious : Updated st'' st₃ g Record.previous) : Kept info (fun _ => True) st st₃ := by
  have hrecord := hst.record_eq g List.mem_cons_self
  have hrecord' := hnext.self
  rw [hrecord] at hrecord'
  obtain ⟨r, hr, -, hiterator⟩ := hkept.kept g _ hrecord'
  have hrecord₃ := hprevious.self
  rw [hr] at hrecord₃
  have hback : Kept info (fun g' => g' ≠ g) st st₃ :=
    ((hnext.kept fun _ h => h).trans (hkept.mono fun _ _ => trivial)).trans (hprevious.kept fun _ h => h)
  have heq : r.previous.iterator = Function.update iterators g i g := by
    rw [Record.previous, hiterator trivial]
    exact BitVec.add_sub_cancel _ _
  refine (hback.back hrecord hrecord₃ heq).mono ?_
  intro g' _
  exact em (g' = g)

/-- The body is called again. -/
theorem iterate_fine {otherwise : Nat → Matcher → Option Next} (hnot : g ∉ opened)
    (hst : Agree info captures nonCaptures (g :: opened) (Function.update iterators g i) st)
    (hnext : Updated st st' g Record.next)
    (hbody : Good tables flags subject code info captures nonCaptures (g :: opened)
      (Function.update iterators g (i + 1#32)) bc)
    (hotherwise : ∀ st'', Kept info (fun _ => True) st' st'' → Reaches (fun n => otherwise n st'')
      (Fine tables flags subject code info captures nonCaptures (g :: opened) (Function.update iterators g i) st)) :
    Reaches (fun n => runTail (ecmaRegexpRun tables flags subject code n) bc str st' (otherwise n))
      (Fine tables flags subject code info captures nonCaptures (g :: opened) (Function.update iterators g i) st) := by
  refine runTail_fine hbody (iterate_agree hnot hst hnext) (fun _ hg => hg) ?_ hotherwise
  refine (hnext.kept fun _ h => h).mono ?_
  intro g' hg' heq
  exact hg' (heq ▸ List.mem_cons_self)

/-! ## The ends of capturing groups -/

section

variable {idx : Nat} {group : Capture}

/-- The entry of an open group says where its body and its captures are. -/
theorem capture_record (hst : Agree info captures nonCaptures ((true, idx) :: opened)
      (Function.update iterators (true, idx) i) st) :
    ∃ group, st.captures[idx]? = some group ∧ group.bc = (info (true, idx)).bc ∧
      (info (true, idx)).subcaptureStart = idx ∧
      group.subcaptureCount.toNat = (info (true, idx)).subcaptureCount ∧ group.iterator = i := by
  have hrecord := hst.record_eq (true, idx) List.mem_cons_self
  obtain ⟨group, hget, hgroup⟩ := Option.map_eq_some_iff.mp hrecord
  rw [Function.update_self, Capture.record, Record.mk.injEq] at hgroup
  refine ⟨group, hget, ?_, ?_, ?_, hgroup.2⟩
  · rw [← hgroup.1]
  · rw [← hgroup.1]
  · rw [← hgroup.1]

theorem iterateCapturingBelow_fine (hnot : (true, idx) ∉ opened)
    (hst : Agree info captures nonCaptures ((true, idx) :: opened) (Function.update iterators (true, idx) i) st)
    (hidx : idx < captures) (hrange : idx + group.subcaptureCount.toNat ≤ captures)
    (hbody : Good tables flags subject code info captures nonCaptures ((true, idx) :: opened)
      (Function.update iterators (true, idx) (i + 1#32)) group.bc) :
    Reaches (fun n => iterateCapturingBelow (ecmaRegexpRun tables flags subject code n) idx group str st)
      (Fine tables flags subject code info captures nonCaptures ((true, idx) :: opened)
        (Function.update iterators (true, idx) i) st) := by
  have hlength := hst.sized.captures_eq
  obtain ⟨st₁, hst₁, hsame₁⟩ := @updateCapture_same st idx (fun c => { c with beginP := some str }) (by omega)
    (fun _ => rfl)
  obtain ⟨st₂, hst₂, hsame₂⟩ := @clearBegins_same st₁ (idx + 1) (group.subcaptureCount.toNat - 1)
    (by rw [hsame₁.captures_eq]; omega)
  obtain ⟨st₃, hst₃, hnext⟩ := @updateCapture_spec st₂ idx (fun c => { c with iterator := c.iterator + 1#32 })
    Record.next (by rw [hsame₂.captures_eq, hsame₁.captures_eq]; omega) (fun _ => rfl)
  simp only [iterateCapturingBelow, hst₁, hst₂, hst₃, Option.bind_eq_bind, Option.bind_some]
  have hnext' := (hsame₁.trans hsame₂).updated hnext
  refine @iterate_fine tables flags subject code info captures nonCaptures opened iterators st st₃ (true, idx) i group.bc
    str _ hnot hst hnext' hbody ?_
  intro st₄ hkept
  obtain ⟨st₅, hst₅, hprevious⟩ := @updateCapture_spec st₄ idx (fun c => { c with iterator := c.iterator - 1#32 })
    Record.previous (by rw [hkept.captures_eq, hnext'.captures_eq]; omega) (fun _ => rfl)
  rw [hst₅]
  exact reaches_const (iterate_kept hst hnext' hkept hprevious)

theorem iterateCapturing_fine {otherwise : Nat → Matcher → Option Next} (hnot : (true, idx) ∉ opened)
    (hst : Agree info captures nonCaptures ((true, idx) :: opened) (Function.update iterators (true, idx) i) st)
    (hidx : idx < captures) (hrange : idx + group.subcaptureCount.toNat ≤ captures)
    (hbody : Good tables flags subject code info captures nonCaptures ((true, idx) :: opened)
      (Function.update iterators (true, idx) (i + 1#32)) group.bc)
    (hotherwise : ∀ st', Kept info (fun _ => True) st st' → Reaches (fun n => otherwise n st')
      (Fine tables flags subject code info captures nonCaptures ((true, idx) :: opened)
        (Function.update iterators (true, idx) i) st)) :
    Reaches (fun n => iterateCapturing (ecmaRegexpRun tables flags subject code n) idx group str st (otherwise n))
      (Fine tables flags subject code info captures nonCaptures ((true, idx) :: opened)
        (Function.update iterators (true, idx) i) st) := by
  have hlength := hst.sized.captures_eq
  obtain ⟨st₁, hst₁, hsame₁⟩ := @clearBegins_same st idx group.subcaptureCount.toNat (by omega)
  obtain ⟨st₂, hst₂, hnext⟩ := @updateCapture_spec st₁ idx
    (fun c => { c with iterator := c.iterator + 1#32, beginP := some str }) Record.next
    (by rw [hsame₁.captures_eq]; omega) (fun _ => rfl)
  simp only [iterateCapturing, hst₁, hst₂, Option.bind_eq_bind, Option.bind_some]
  have hnext' := hsame₁.updated hnext
  refine @iterate_fine tables flags subject code info captures nonCaptures opened iterators st st₂ (true, idx) i group.bc
    str _ hnot hst hnext' hbody ?_
  intro st₃ hkept
  obtain ⟨st₄, hst₄, hsame₄⟩ := @restoreBegins_same st₃ idx (st.savedBegins idx group.subcaptureCount.toNat)
    (by rw [length_savedBegins, hkept.captures_eq, hnext'.captures_eq]; omega)
  obtain ⟨st₅, hst₅, hprevious⟩ := @updateCapture_spec st₄ idx (fun c => { c with iterator := c.iterator - 1#32 })
    Record.previous (by rw [hsame₄.captures_eq, hkept.captures_eq, hnext'.captures_eq]; omega) (fun _ => rfl)
  simp only [hst₄, hst₅, Option.bind_some]
  exact hotherwise st₅ (iterate_kept hst hnext' hkept (hsame₄.updated hprevious))

end

/-- An iteration that is asked for does not wrap around. -/
theorem iterator_lt {j : BitVec 32} (h : i < j) : i.toNat + 1 < 2 ^ 32 := by
  have hlt : i.toNat < j.toNat := h
  have := j.isLt
  omega

section

variable {idx bc' b1 b2 b3 : Nat} {qmin qmax : BitVec 32}

/-- The tail is called behind the last iteration of a capturing group. -/
theorem captureTail_fine (hnot : (true, idx) ∉ opened)
    (hst : Agree info captures nonCaptures ((true, idx) :: opened) (Function.update iterators (true, idx) i) st)
    (hidx : idx < captures)
    (hgood : Good tables flags subject code info captures nonCaptures opened iterators bc)
    (hkept : Kept info (fun _ => True) st st') {otherwise : Nat → Matcher → Option Next}
    (hotherwise : ∀ st'', Kept info (fun _ => True) st st'' → Reaches (fun n => otherwise n st'')
      (Fine tables flags subject code info captures nonCaptures ((true, idx) :: opened)
        (Function.update iterators (true, idx) i) st)) :
    Reaches (fun n => (st'.updateCapture idx fun c => { c with endP := some str }).bind fun st =>
        runTail (ecmaRegexpRun tables flags subject code n) bc str st (otherwise n))
      (Fine tables flags subject code info captures nonCaptures ((true, idx) :: opened)
        (Function.update iterators (true, idx) i) st) := by
  obtain ⟨st₁, hst₁, hsame₁⟩ := @updateCapture_same st' idx (fun c => { c with endP := some str })
    (by rw [hkept.captures_eq, hst.sized.captures_eq]; exact hidx) (fun _ => rfl)
  rw [hst₁]
  simp only [Option.bind_some]
  have hkept₁ : Kept info (fun _ => True) st st₁ := hkept.trans hsame₁.kept
  refine runTail_fine hgood (((hst.tail hnot).kept hkept₁ fun _ _ => trivial)) (fun _ hg => List.mem_cons_of_mem _ hg)
    (hkept₁.mono fun _ _ => trivial) ?_
  intro st₂ hkept₂
  exact hotherwise st₂ (hkept₁.trans hkept₂)

theorem capturingGroupEnd_good {greedy : Bool} (hnot : (true, idx) ∉ opened) (hidx : idx < captures)
    (hcaptures : captures ≤ 2 ^ 32)
    (hrange : (info (true, idx)).subcaptureStart + (info (true, idx)).subcaptureCount ≤ captures)
    (hop : getOpcode code bc = some (reGetGroupEndOpcode greedy true, b1))
    (hvalue : getValue code b1 = some (BitVec.ofNat 32 idx, b2)) (hqmin : getValue code b2 = some (qmin, b3))
    (hqmax : getValue code b3 = some (qmax, bc'))
    (hgood : Good tables flags subject code info captures nonCaptures opened iterators bc')
    (hbody : i.toNat + 1 < 2 ^ 32 → Good tables flags subject code info captures nonCaptures ((true, idx) :: opened)
      (Function.update iterators (true, idx) (i + 1#32)) (info (true, idx)).bc) :
    Good tables flags subject code info captures nonCaptures ((true, idx) :: opened)
      (Function.update iterators (true, idx) i) bc := by
  refine good_of_instruction hop ?_
  intro str st hst
  obtain ⟨group, hget, hbc, hstart, hcount, hiterator⟩ := capture_record hst
  have hnat : (BitVec.ofNat 32 idx).toNat = idx := by
    rw [BitVec.toNat_ofNat]
    omega
  have hrange' : idx + group.subcaptureCount.toNat ≤ captures := by omega
  rw [← hbc] at hbody
  have hfail : ∀ st', Kept info (fun _ => True) st st' → Reaches (fun _ => some (Next.fail st'))
      (Fine tables flags subject code info captures nonCaptures ((true, idx) :: opened)
        (Function.update iterators (true, idx) i) st) := fun st' hkept => reaches_const hkept
  cases greedy with
  | true =>
    show Reaches (fun n => greedyCapturingGroupEnd code (ecmaRegexpRun tables flags subject code n) b1 str st) _
    simp only [greedyCapturingGroupEnd, hvalue, hqmin, hqmax, hnat, hget, hiterator, Option.bind_eq_bind,
      Option.bind_some]
    by_cases hbelow : i < qmin
    · simp only [if_pos hbelow]
      exact iterateCapturingBelow_fine hnot hst hidx hrange' (hbody (iterator_lt hbelow))
    simp only [if_neg hbelow]
    by_cases hempty : atOrBehind group.beginP str = true ∧ qmin < i
    · simp only [if_pos hempty]
      exact hfail st (Kept.refl st)
    simp only [if_neg hempty]
    by_cases hmax : qmax - qmaxOffset ≤ i
    · simp only [if_pos hmax]
      exact captureTail_fine hnot hst hidx hgood (Kept.refl st) hfail
    · simp only [if_neg hmax]
      refine iterateCapturing_fine hnot hst hidx hrange' (hbody (iterator_lt (BitVec.not_le.mp hmax))) ?_
      intro st' hkept
      exact captureTail_fine hnot hst hidx hgood hkept hfail
  | false =>
    show Reaches (fun n => lazyCapturingGroupEnd code (ecmaRegexpRun tables flags subject code n) b1 str st) _
    simp only [lazyCapturingGroupEnd, hvalue, hqmin, hqmax, hnat, hget, hiterator, Option.bind_eq_bind,
      Option.bind_some]
    by_cases hbelow : i < qmin
    · simp only [if_pos hbelow]
      exact iterateCapturingBelow_fine hnot hst hidx hrange' (hbody (iterator_lt hbelow))
    simp only [if_neg hbelow]
    by_cases hempty : atOrBehind group.beginP str = true ∧ qmin < i
    · simp only [if_pos hempty]
      exact hfail st (Kept.refl st)
    simp only [if_neg hempty]
    refine captureTail_fine hnot hst hidx hgood (Kept.refl st) ?_
    intro st' hkept
    have hst' := hst.kept hkept fun _ _ => trivial
    obtain ⟨group', hget', hbc', hstart', hcount', hiterator'⟩ := capture_record hst'
    simp only [hget', Option.bind_some, hiterator']
    by_cases hmax : qmax - qmaxOffset ≤ i
    · simp only [if_pos hmax]
      exact hfail st' hkept
    · simp only [if_neg hmax]
      rw [hbc, ← hbc'] at hbody
      have hiterate := @iterateCapturing_fine tables flags subject code info captures nonCaptures opened iterators st' i
        str idx group' (fun _ st => some (.fail st)) hnot hst' hidx (by omega)
        (hbody (iterator_lt (BitVec.not_le.mp hmax))) (fun st'' hkept' => reaches_const hkept')
      exact hiterate.mono fun nxt hnxt => hnxt.before hkept

end

/-! ## The ends of non-capturing groups -/

section

variable {idx : Nat} {group : NonCapture}

theorem nonCapture_record (hst : Agree info captures nonCaptures ((false, idx) :: opened)
      (Function.update iterators (false, idx) i) st) :
    ∃ group, st.nonCaptures[idx]? = some group ∧ group.bc = (info (false, idx)).bc ∧
      group.subcaptureStart.toNat = (info (false, idx)).subcaptureStart ∧
      group.subcaptureCount.toNat = (info (false, idx)).subcaptureCount ∧ group.iterator = i := by
  have hrecord := hst.record_eq (false, idx) List.mem_cons_self
  obtain ⟨group, hget, hgroup⟩ := Option.map_eq_some_iff.mp hrecord
  rw [Function.update_self, NonCapture.record, Record.mk.injEq] at hgroup
  refine ⟨group, hget, ?_, ?_, ?_, hgroup.2⟩
  · rw [← hgroup.1]
  · rw [← hgroup.1]
  · rw [← hgroup.1]

/-- Another iteration below the minimum; a greedy group has noted the address before. -/
theorem iterateNonCapturingBelow_fine (hnot : (false, idx) ∉ opened)
    (hst : Agree info captures nonCaptures ((false, idx) :: opened) (Function.update iterators (false, idx) i) st)
    (hidx : idx < nonCaptures) (hrange : group.subcaptureStart.toNat + group.subcaptureCount.toNat ≤ captures)
    (hbody : Good tables flags subject code info captures nonCaptures ((false, idx) :: opened)
      (Function.update iterators (false, idx) (i + 1#32)) group.bc) (hsame : SameRecords st st') :
    Reaches (fun n => do
        let st ← st'.clearBegins group.subcaptureStart.toNat group.subcaptureCount.toNat
        let st ← st.updateNonCapture idx fun c => { c with iterator := c.iterator + 1#32 }
        let (matched, st) ← ecmaRegexpRun tables flags subject code n group.bc str st
        Next.orElse matched st fun st => do
          let st ← st.updateNonCapture idx fun c => { c with iterator := c.iterator - 1#32 }
          some (.fail st))
      (Fine tables flags subject code info captures nonCaptures ((false, idx) :: opened)
        (Function.update iterators (false, idx) i) st) := by
  have hlength := hst.sized.captures_eq
  have hnon := hst.sized.nonCaptures_eq
  obtain ⟨st₁, hst₁, hsame₁⟩ := @clearBegins_same st' group.subcaptureStart.toNat group.subcaptureCount.toNat
    (by rw [hsame.captures_eq]; omega)
  obtain ⟨st₂, hst₂, hnext⟩ := @updateNonCapture_spec st₁ idx (fun c => { c with iterator := c.iterator + 1#32 })
    Record.next (by rw [hsame₁.nonCaptures_eq, hsame.nonCaptures_eq]; omega) (fun _ => rfl)
  simp only [hst₁, hst₂, Option.bind_eq_bind, Option.bind_some]
  have hnext' := (hsame.trans hsame₁).updated hnext
  refine @iterate_fine tables flags subject code info captures nonCaptures opened iterators st st₂ (false, idx) i group.bc
    str _ hnot hst hnext' hbody ?_
  intro st₃ hkept
  obtain ⟨st₄, hst₄, hprevious⟩ := @updateNonCapture_spec st₃ idx (fun c => { c with iterator := c.iterator - 1#32 })
    Record.previous (by rw [hkept.nonCaptures_eq, hnext'.nonCaptures_eq]; omega) (fun _ => rfl)
  rw [hst₄]
  exact reaches_const (iterate_kept hst hnext' hkept hprevious)

theorem iterateNonCapturing_fine {otherwise : Nat → Matcher → Option Next} (hnot : (false, idx) ∉ opened)
    (hst : Agree info captures nonCaptures ((false, idx) :: opened) (Function.update iterators (false, idx) i) st)
    (hidx : idx < nonCaptures) (hrange : group.subcaptureStart.toNat + group.subcaptureCount.toNat ≤ captures)
    (hbody : Good tables flags subject code info captures nonCaptures ((false, idx) :: opened)
      (Function.update iterators (false, idx) (i + 1#32)) group.bc)
    (hotherwise : ∀ st', Kept info (fun _ => True) st st' → Reaches (fun n => otherwise n st')
      (Fine tables flags subject code info captures nonCaptures ((false, idx) :: opened)
        (Function.update iterators (false, idx) i) st)) :
    Reaches (fun n => iterateNonCapturing (ecmaRegexpRun tables flags subject code n) idx group str st (otherwise n))
      (Fine tables flags subject code info captures nonCaptures ((false, idx) :: opened)
        (Function.update iterators (false, idx) i) st) := by
  have hlength := hst.sized.captures_eq
  have hnon := hst.sized.nonCaptures_eq
  obtain ⟨st₁, hst₁, hsame₁⟩ := @clearBegins_same st group.subcaptureStart.toNat group.subcaptureCount.toNat (by omega)
  obtain ⟨st₂, hst₂, hnext⟩ := @updateNonCapture_spec st₁ idx
    (fun c => { c with iterator := c.iterator + 1#32, beginP := some str }) Record.next
    (by rw [hsame₁.nonCaptures_eq]; omega) (fun _ => rfl)
  simp only [iterateNonCapturing, hst₁, hst₂, Option.bind_eq_bind, Option.bind_some]
  have hnext' := hsame₁.updated hnext
  refine @iterate_fine tables flags subject code info captures nonCaptures opened iterators st st₂ (false, idx) i group.bc
    str _ hnot hst hnext' hbody ?_
  intro st₃ hkept
  obtain ⟨st₄, hst₄, hsame₄⟩ := @restoreBegins_same st₃ group.subcaptureStart.toNat
    (st.savedBegins group.subcaptureStart.toNat group.subcaptureCount.toNat)
    (by rw [length_savedBegins, hkept.captures_eq, hnext'.captures_eq]; omega)
  obtain ⟨st₅, hst₅, hprevious⟩ := @updateNonCapture_spec st₄ idx
    (fun c => { c with iterator := c.iterator - 1#32, beginP := group.beginP }) Record.previous
    (by rw [hsame₄.nonCaptures_eq, hkept.nonCaptures_eq, hnext'.nonCaptures_eq]; omega) (fun _ => rfl)
  simp only [hst₄, hst₅, Option.bind_some]
  exact hotherwise st₅ (iterate_kept hst hnext' hkept (hsame₄.updated hprevious))

variable {bc' b1 b2 b3 : Nat} {qmin qmax : BitVec 32}

theorem nonCapturingGroupEnd_good {greedy : Bool} (hnot : (false, idx) ∉ opened) (hidx : idx < nonCaptures)
    (hnonCaptures : nonCaptures ≤ 2 ^ 32)
    (hrange : (info (false, idx)).subcaptureStart + (info (false, idx)).subcaptureCount ≤ captures)
    (hop : getOpcode code bc = some (reGetGroupEndOpcode greedy false, b1))
    (hvalue : getValue code b1 = some (BitVec.ofNat 32 idx, b2)) (hqmin : getValue code b2 = some (qmin, b3))
    (hqmax : getValue code b3 = some (qmax, bc'))
    (hgood : Good tables flags subject code info captures nonCaptures opened iterators bc')
    (hbody : i.toNat + 1 < 2 ^ 32 → Good tables flags subject code info captures nonCaptures ((false, idx) :: opened)
      (Function.update iterators (false, idx) (i + 1#32)) (info (false, idx)).bc) :
    Good tables flags subject code info captures nonCaptures ((false, idx) :: opened)
      (Function.update iterators (false, idx) i) bc := by
  refine good_of_instruction hop ?_
  intro str st hst
  obtain ⟨group, hget, hbc, hstart, hcount, hiterator⟩ := nonCapture_record hst
  have hnat : (BitVec.ofNat 32 idx).toNat = idx := by
    rw [BitVec.toNat_ofNat]
    omega
  have hrange' : group.subcaptureStart.toNat + group.subcaptureCount.toNat ≤ captures := by omega
  rw [← hbc] at hbody
  have hfail : ∀ st', Kept info (fun _ => True) st st' → Reaches (fun _ => some (Next.fail st'))
      (Fine tables flags subject code info captures nonCaptures ((false, idx) :: opened)
        (Function.update iterators (false, idx) i) st) := fun st' hkept => reaches_const hkept
  -- the tail behind the last iteration
  have htail : ∀ st' (otherwise : Nat → Matcher → Option Next), Kept info (fun _ => True) st st' →
      (∀ st'', Kept info (fun _ => True) st st'' → Reaches (fun n => otherwise n st'')
        (Fine tables flags subject code info captures nonCaptures ((false, idx) :: opened)
          (Function.update iterators (false, idx) i) st)) →
      Reaches (fun n => runTail (ecmaRegexpRun tables flags subject code n) bc' str st' (otherwise n))
        (Fine tables flags subject code info captures nonCaptures ((false, idx) :: opened)
          (Function.update iterators (false, idx) i) st) := by
    intro st' otherwise hkept hotherwise
    refine runTail_fine hgood (((hst.tail hnot).kept hkept fun _ _ => trivial)) (fun _ hg => List.mem_cons_of_mem _ hg)
      (hkept.mono fun _ _ => trivial) ?_
    intro st'' hkept'
    exact hotherwise st'' (hkept.trans hkept')
  cases greedy with
  | true =>
    show Reaches (fun n => greedyNonCapturingGroupEnd code (ecmaRegexpRun tables flags subject code n) b1 str st) _
    simp only [greedyNonCapturingGroupEnd, hvalue, hqmin, hqmax, hnat, hget, hiterator, Option.bind_eq_bind,
      Option.bind_some]
    by_cases hbelow : i < qmin
    · simp only [if_pos hbelow]
      obtain ⟨st₁, hst₁, hsame₁⟩ := @updateNonCapture_same st idx (fun c => { c with beginP := some str })
        (by rw [hst.sized.nonCaptures_eq]; exact hidx) (fun _ => rfl)
      simp only [hst₁, Option.bind_some]
      exact iterateNonCapturingBelow_fine hnot hst hidx hrange' (hbody (iterator_lt hbelow)) hsame₁
    simp only [if_neg hbelow]
    by_cases hempty : atOrBehind group.beginP str = true ∧ qmin < i
    · simp only [if_pos hempty]
      exact hfail st (Kept.refl st)
    simp only [if_neg hempty]
    by_cases hmax : qmax - qmaxOffset ≤ i
    · simp only [if_pos hmax]
      exact htail st (fun _ st => some (.fail st)) (Kept.refl st) hfail
    · simp only [if_neg hmax]
      refine iterateNonCapturing_fine hnot hst hidx hrange' (hbody (iterator_lt (BitVec.not_le.mp hmax))) ?_
      intro st' hkept
      exact htail st' (fun _ st => some (.fail st)) hkept hfail
  | false =>
    show Reaches (fun n => lazyNonCapturingGroupEnd code (ecmaRegexpRun tables flags subject code n) b1 str st) _
    simp only [lazyNonCapturingGroupEnd, hvalue, hqmin, hqmax, hnat, hget, hiterator, Option.bind_eq_bind,
      Option.bind_some]
    by_cases hbelow : i < qmin
    · simp only [if_pos hbelow]
      exact iterateNonCapturingBelow_fine hnot hst hidx hrange' (hbody (iterator_lt hbelow)) (SameRecords.refl st)
    simp only [if_neg hbelow]
    by_cases hempty : atOrBehind group.beginP str = true ∧ qmin < i
    · simp only [if_pos hempty]
      exact hfail st (Kept.refl st)
    simp only [if_neg hempty]
    refine htail st _ (Kept.refl st) ?_
    intro st' hkept
    have hst' := hst.kept hkept fun _ _ => trivial
    obtain ⟨group', hget', hbc', hstart', hcount', hiterator'⟩ := nonCapture_record hst'
    simp only [hget', Option.bind_some, hiterator']
    by_cases hmax : qmax - qmaxOffset ≤ i
    · simp only [if_pos hmax]
      exact hfail st' hkept
    · simp only [if_neg hmax]
      rw [hbc, ← hbc'] at hbody
      have hiterate := @iterateNonCapturing_fine tables flags subject code info captures nonCaptures opened iterators st'
        i str idx group' (fun _ st => some (.fail st)) hnot hst' hidx (by omega)
        (hbody (iterator_lt (BitVec.not_le.mp hmax))) (fun st'' hkept' => reaches_const hkept')
      exact hiterate.mono fun nxt hnxt => hnxt.before hkept

end

/-! ## The starts of groups -/

/-- Behind the call of a group its iterator is what it was before the group. -/
theorem leave_post {r : Record} {result : Result} {place : Place} (hrecord : st.record g = some r)
    (hstart : Updated st st' g fun _ => ⟨place, i⟩) (hplace : place = info g)
    (hpost : Post info (g :: opened) st' result)
    (hleave : Updated result.2 st'' g fun r' => ⟨r'.place, r.iterator⟩) :
    Post info opened st (result.1, st'') := by
  have hstart' := hstart.self
  rw [hrecord] at hstart'
  obtain ⟨r', hr', -, -⟩ := hpost.kept g _ hstart'
  have hleave' := hleave.self
  rw [hr'] at hleave'
  have hkept : Kept info (fun g' => g' ≠ g ∧ (result.1 = none ∨ g' ∉ opened)) st st'' := by
    refine (((hstart.kept fun _ _ => hplace).mono ?_).trans (Kept.mono hpost ?_)).trans
      ((hleave.kept fun _ h => h).mono ?_)
    · intro g' hg'
      exact hg'.1
    · intro g' hg'
      refine hg'.2.imp id ?_
      intro hnot hmem
      exact hnot ((List.mem_cons.mp hmem).resolve_left hg'.1)
    · intro g' hg'
      exact hg'.1
  refine (hkept.back hrecord hleave' rfl).mono ?_
  intro g' hg'
  exact (em (g' = g)).imp id fun hne => ⟨hne, hg'⟩

section

variable {idx b1 b2 b3 b4 body groupEnd : Nat} {count qmin offset start : BitVec 32} {r : Record} {place : Place}

theorem capturingLeave_fine {saved : Capture} (hidx : idx < captures) (hnot : (true, idx) ∉ opened)
    (hst : Agree info captures nonCaptures opened iterators st) (hrecord : st.record (true, idx) = some r)
    (hsaved : saved.iterator = r.iterator) (hplace : place = info (true, idx))
    (hstart : Updated st st' (true, idx) fun _ => ⟨place, i⟩)
    (hgood : Good tables flags subject code info captures nonCaptures ((true, idx) :: opened)
      (Function.update iterators (true, idx) i) bc) :
    Reaches (fun n => (ecmaRegexpRun tables flags subject code n bc str st').bind (capturingGroupStart.leave idx saved))
      (Fine tables flags subject code info captures nonCaptures opened iterators st) := by
  refine Reaches.bind (hgood.call (hst.cons hnot hrecord hstart (by rw [hplace])) str) ?_
  rintro ⟨matched, st₁⟩ hpost
  have hlength : st₁.captures.length = captures := by
    rw [Kept.captures_eq hpost, hstart.captures_eq, hst.sized.captures_eq]
  obtain ⟨st₂, hst₂, hleave⟩ := @updateCapture_spec st₁ idx (fun c => { c with iterator := saved.iterator })
    (fun r' => ⟨r'.place, r.iterator⟩) (by omega) (fun c => by rw [hsaved]; rfl)
  have hpost₂ := leave_post hrecord hstart hplace hpost hleave
  simp only [capturingGroupStart.leave, hst₂, Option.bind_eq_bind, Option.bind_some]
  cases matched with
  | some str' => exact reaches_const hpost₂
  | none =>
    obtain ⟨st₃, hst₃, hsame₃⟩ := @updateCapture_same st₂ idx
      (fun c => { c with beginP := saved.beginP, endP := saved.endP }) (by rw [hleave.captures_eq]; omega) (fun _ => rfl)
    simp only [Next.orElse, hst₃, Option.bind_some]
    exact reaches_const ((Kept.mono hpost₂ fun _ _ => Or.inl rfl).trans hsame₃.kept)

theorem capturingGroupStart_good (hnot : (true, idx) ∉ opened) (hidx : idx < captures) (hcaptures : captures ≤ 2 ^ 32)
    (hop : getOpcode code bc = some (.capturingGroupStart, b1))
    (hvalue : getValue code b1 = some (BitVec.ofNat 32 idx, b2)) (hcount : getValue code b2 = some (count, b3))
    (hqmin : getValue code b3 = some (qmin, b4)) (hoffset : ReadsValueIf code (qmin = 0#32) b4 offset body)
    (hend : qmin = 0#32 → body + offset.toNat = groupEnd) (hinfo : info (true, idx) = ⟨body, idx, count.toNat⟩)
    (hgoodEnd : Good tables flags subject code info captures nonCaptures ((true, idx) :: opened)
      (Function.update iterators (true, idx) 0#32) groupEnd)
    (hgoodBody : Good tables flags subject code info captures nonCaptures ((true, idx) :: opened)
      (Function.update iterators (true, idx) 1#32) body) :
    Good tables flags subject code info captures nonCaptures opened iterators bc := by
  refine good_of_instruction hop ?_
  intro str st hst
  have hlength := hst.sized.captures_eq
  have hnat : (BitVec.ofNat 32 idx).toNat = idx := by
    rw [BitVec.toNat_ofNat]
    omega
  have hlt : idx < st.captures.length := by omega
  have hrecord : st.record (true, idx) = some (st.captures[idx].record idx) := by
    rw [record, List.getElem?_eq_getElem hlt]
    rfl
  obtain ⟨st₁, hst₁, hcounted⟩ := @updateCapture_spec st idx (fun c => { c with subcaptureCount := count })
    (fun r => ⟨⟨r.place.bc, idx, count.toNat⟩, r.iterator⟩) hlt (fun _ => rfl)
  have hlt₁ : idx < st₁.captures.length := by
    rw [hcounted.captures_eq]
    exact hlt
  have hsaved : st₁.captures[idx].iterator = st.captures[idx].iterator := by
    have hself := hcounted.self
    rw [hrecord, record, List.getElem?_eq_getElem hlt₁] at hself
    exact congrArg Record.iterator (Option.some.inj hself)
  obtain ⟨st₂, hst₂, hsame₂⟩ := @updateCapture_same st₁ idx (fun c => { c with endP := none }) hlt₁ (fun _ => rfl)
  show Reaches (fun n => capturingGroupStart code (ecmaRegexpRun tables flags subject code n) b1 str st) _
  simp only [capturingGroupStart, hvalue, hcount, hqmin, hnat, hst₁, List.getElem?_eq_getElem hlt₁, hst₂,
    Option.bind_eq_bind, Option.bind_some]
  rcases hoffset with ⟨hzero, hoffset⟩ | ⟨hzero, hbody⟩
  · obtain ⟨st₃, hst₃, hbegin⟩ := @updateCapture_spec st₂ idx
      (fun c => { c with iterator := 0#32, beginP := none, bc := body }) (fun r => ⟨⟨body, idx, r.place.subcaptureCount⟩, 0#32⟩)
      (by rw [hsame₂.captures_eq]; exact hlt₁) (fun _ => rfl)
    simp only [if_pos hzero, hoffset, Option.bind_some, hst₃]
    rw [← hend hzero] at hgoodEnd
    exact capturingLeave_fine hidx hnot hst hrecord hsaved hinfo.symm (hcounted.trans (hsame₂.updated hbegin)) hgoodEnd
  · obtain ⟨st₃, hst₃, hbegin⟩ := @updateCapture_spec st₂ idx
      (fun c => { c with iterator := 1#32, beginP := some str, bc := body })
      (fun r => ⟨⟨body, idx, r.place.subcaptureCount⟩, 1#32⟩) (by rw [hsame₂.captures_eq]; exact hlt₁) (fun _ => rfl)
    rw [hbody] at hst₃
    simp only [if_neg hzero, hst₃, Option.bind_some]
    rw [← hbody]
    exact capturingLeave_fine hidx hnot hst hrecord hsaved hinfo.symm (hcounted.trans (hsame₂.updated hbegin)) hgoodBody

theorem nonCapturingLeave_fine {saved : NonCapture} (hidx : idx < nonCaptures) (hnot : (false, idx) ∉ opened)
    (hst : Agree info captures nonCaptures opened iterators st) (hrecord : st.record (false, idx) = some r)
    (hsaved : saved.iterator = r.iterator) (hplace : place = info (false, idx))
    (hstart : Updated st st' (false, idx) fun _ => ⟨place, i⟩)
    (hgood : Good tables flags subject code info captures nonCaptures ((false, idx) :: opened)
      (Function.update iterators (false, idx) i) bc) :
    Reaches (fun n => (ecmaRegexpRun tables flags subject code n bc str st').bind
        (nonCapturingGroupStart.leave idx saved))
      (Fine tables flags subject code info captures nonCaptures opened iterators st) := by
  refine Reaches.bind (hgood.call (hst.cons hnot hrecord hstart (by rw [hplace])) str) ?_
  rintro ⟨matched, st₁⟩ hpost
  have hlength : st₁.nonCaptures.length = nonCaptures := by
    rw [Kept.nonCaptures_eq hpost, hstart.nonCaptures_eq, hst.sized.nonCaptures_eq]
  obtain ⟨st₂, hst₂, hleave⟩ := @updateNonCapture_spec st₁ idx (fun c => { c with iterator := saved.iterator })
    (fun r' => ⟨r'.place, r.iterator⟩) (by omega) (fun c => by rw [hsaved]; rfl)
  have hpost₂ := leave_post hrecord hstart hplace hpost hleave
  simp only [nonCapturingGroupStart.leave, hst₂, Option.bind_eq_bind, Option.bind_some]
  cases matched with
  | some str' => exact reaches_const hpost₂
  | none =>
    obtain ⟨st₃, hst₃, hsame₃⟩ := @updateNonCapture_same st₂ idx (fun c => { c with beginP := saved.beginP })
      (by rw [hleave.nonCaptures_eq]; omega) (fun _ => rfl)
    simp only [Next.orElse, hst₃, Option.bind_some]
    exact reaches_const ((Kept.mono hpost₂ fun _ _ => Or.inl rfl).trans hsame₃.kept)

theorem nonCapturingGroupStart_good {b0 : Nat} (hnot : (false, idx) ∉ opened) (hidx : idx < nonCaptures)
    (hnonCaptures : nonCaptures ≤ 2 ^ 32) (hop : getOpcode code bc = some (.nonCapturingGroupStart, b0))
    (hvalue : getValue code b0 = some (BitVec.ofNat 32 idx, b1)) (hstart : getValue code b1 = some (start, b2))
    (hcount : getValue code b2 = some (count, b3))
    (hqmin : getValue code b3 = some (qmin, b4)) (hoffset : ReadsValueIf code (qmin = 0#32) b4 offset body)
    (hend : qmin = 0#32 → body + offset.toNat = groupEnd)
    (hinfo : info (false, idx) = ⟨body, start.toNat, count.toNat⟩)
    (hgoodEnd : Good tables flags subject code info captures nonCaptures ((false, idx) :: opened)
      (Function.update iterators (false, idx) 0#32) groupEnd)
    (hgoodBody : Good tables flags subject code info captures nonCaptures ((false, idx) :: opened)
      (Function.update iterators (false, idx) 1#32) body) :
    Good tables flags subject code info captures nonCaptures opened iterators bc := by
  refine good_of_instruction hop ?_
  intro str st hst
  have hlength := hst.sized.nonCaptures_eq
  have hnat : (BitVec.ofNat 32 idx).toNat = idx := by
    rw [BitVec.toNat_ofNat]
    omega
  have hlt : idx < st.nonCaptures.length := by omega
  have hrecord : st.record (false, idx) = some st.nonCaptures[idx].record := by
    rw [record, List.getElem?_eq_getElem hlt]
    rfl
  obtain ⟨st₁, hst₁, hcounted⟩ := @updateNonCapture_spec st idx
    (fun c => { c with subcaptureStart := start, subcaptureCount := count })
    (fun r => ⟨⟨r.place.bc, start.toNat, count.toNat⟩, r.iterator⟩) hlt (fun _ => rfl)
  have hlt₁ : idx < st₁.nonCaptures.length := by
    rw [hcounted.nonCaptures_eq]
    exact hlt
  have hsaved : st₁.nonCaptures[idx].iterator = st.nonCaptures[idx].iterator := by
    have hself := hcounted.self
    rw [hrecord, record, List.getElem?_eq_getElem hlt₁] at hself
    exact congrArg Record.iterator (Option.some.inj hself)
  show Reaches (fun n => nonCapturingGroupStart code (ecmaRegexpRun tables flags subject code n) b0 str st) _
  simp only [nonCapturingGroupStart, hvalue, hstart, hcount, hqmin, hnat, hst₁, List.getElem?_eq_getElem hlt₁,
    Option.bind_eq_bind, Option.bind_some]
  rcases hoffset with ⟨hzero, hoffset⟩ | ⟨hzero, hbody⟩
  · obtain ⟨st₂, hst₂, hbegin⟩ := @updateNonCapture_spec st₁ idx
      (fun c => { c with iterator := 0#32, beginP := none, bc := body })
      (fun r => ⟨⟨body, r.place.subcaptureStart, r.place.subcaptureCount⟩, 0#32⟩) hlt₁ (fun _ => rfl)
    simp only [if_pos hzero, hoffset, Option.bind_some, hst₂]
    rw [← hend hzero] at hgoodEnd
    exact nonCapturingLeave_fine hidx hnot hst hrecord hsaved hinfo.symm (hcounted.trans hbegin) hgoodEnd
  · obtain ⟨st₂, hst₂, hbegin⟩ := @updateNonCapture_spec st₁ idx
      (fun c => { c with iterator := 1#32, beginP := some str, bc := body })
      (fun r => ⟨⟨body, r.place.subcaptureStart, r.place.subcaptureCount⟩, 1#32⟩) hlt₁ (fun _ => rfl)
    rw [hbody] at hst₂
    simp only [if_neg hzero, hst₂, Option.bind_some]
    rw [← hbody]
    exact nonCapturingLeave_fine hidx hnot hst hrecord hsaved hinfo.symm (hcounted.trans hbegin) hgoodBody

end

/-! ## Groups of both kinds -/

variable {group : Group} {bc' b1 b2 b3 : Nat} {qmin qmax : BitVec 32}

/-- The end of a group is good when its body is with the next iterator, and what follows the group. -/
theorem groupEnd_good (hgroup : group.Valid captures nonCaptures) (hcaptures : captures ≤ 2 ^ 32)
    (hnonCaptures : nonCaptures ≤ 2 ^ 32) (hnot : (group.isCapturing, group.idx) ∉ opened)
    (hrange : (info (group.isCapturing, group.idx)).subcaptureStart +
      (info (group.isCapturing, group.idx)).subcaptureCount ≤ captures) {greedy : Bool}
    (hop : getOpcode code bc = some (reGetGroupEndOpcode greedy group.isCapturing, b1))
    (hvalue : getValue code b1 = some (BitVec.ofNat 32 group.idx, b2)) (hqmin : getValue code b2 = some (qmin, b3))
    (hqmax : getValue code b3 = some (qmax, bc'))
    (hgood : Good tables flags subject code info captures nonCaptures opened iterators bc')
    (hbody : i.toNat + 1 < 2 ^ 32 → Good tables flags subject code info captures nonCaptures
      ((group.isCapturing, group.idx) :: opened) (Function.update iterators (group.isCapturing, group.idx) (i + 1#32))
      (info (group.isCapturing, group.idx)).bc) :
    Good tables flags subject code info captures nonCaptures ((group.isCapturing, group.idx) :: opened)
      (Function.update iterators (group.isCapturing, group.idx) i) bc := by
  have hlt := hgroup.idx_lt
  cases hkind : group.isCapturing with
  | true =>
    rw [hkind] at hnot hrange hop hbody hlt
    rw [if_pos rfl] at hlt
    exact capturingGroupEnd_good hnot hlt hcaptures hrange hop hvalue hqmin hqmax hgood hbody
  | false =>
    rw [hkind] at hnot hrange hop hbody hlt
    rw [if_neg Bool.false_ne_true] at hlt
    exact nonCapturingGroupEnd_good hnot hlt hnonCaptures hrange hop hvalue hqmin hqmax hgood hbody

/-- The start of a group is good when its body and its end are. -/
theorem groupStart_good {b0 b4 body groupEnd : Nat} {offset : BitVec 32} (hgroup : group.Valid captures nonCaptures)
    (hcaptures : captures ≤ 2 ^ 32) (hnonCaptures : nonCaptures ≤ 2 ^ 32)
    (hnot : (group.isCapturing, group.idx) ∉ opened)
    (hop : getOpcode code bc = some (reGetGroupStartOpcode group.isCapturing, b0))
    (hvalue : getValue code b0 = some (BitVec.ofNat 32 group.idx, b1))
    (hstart : ReadsValueIf code (group.isCapturing = false) b1 (BitVec.ofNat 32 group.captureStart) b2)
    (hcount : getValue code b2 = some (BitVec.ofNat 32 group.captureCount, b3))
    (hqmin : getValue code b3 = some (qmin, b4)) (hoffset : ReadsValueIf code (qmin = 0#32) b4 offset body)
    (hend : qmin = 0#32 → body + offset.toNat = groupEnd)
    (hinfo : info (group.isCapturing, group.idx) =
      ⟨body, if group.isCapturing then group.idx else (BitVec.ofNat 32 group.captureStart).toNat,
        (BitVec.ofNat 32 group.captureCount).toNat⟩)
    (hgoodEnd : Good tables flags subject code info captures nonCaptures ((group.isCapturing, group.idx) :: opened)
      (Function.update iterators (group.isCapturing, group.idx) 0#32) groupEnd)
    (hgoodBody : Good tables flags subject code info captures nonCaptures ((group.isCapturing, group.idx) :: opened)
      (Function.update iterators (group.isCapturing, group.idx) 1#32) body) :
    Good tables flags subject code info captures nonCaptures opened iterators bc := by
  have hlt := hgroup.idx_lt
  cases hkind : group.isCapturing with
  | true =>
    rw [hkind] at hnot hop hstart hinfo hgoodEnd hgoodBody hlt
    rw [if_pos rfl] at hlt hinfo
    rcases hstart with ⟨hfalse, -⟩ | ⟨-, rfl⟩
    · cases hfalse
    · exact capturingGroupStart_good hnot hlt hcaptures hop hvalue hcount hqmin hoffset hend hinfo hgoodEnd hgoodBody
  | false =>
    rw [hkind] at hnot hop hstart hinfo hgoodEnd hgoodBody hlt
    rw [if_neg Bool.false_ne_true] at hlt hinfo
    rcases hstart with ⟨-, hstart⟩ | ⟨hfalse, -⟩
    · exact nonCapturingGroupStart_good hnot hlt hnonCaptures hop hvalue hstart hcount hqmin hoffset hend hinfo hgoodEnd
        hgoodBody
    · exact absurd rfl hfalse

end

end Regexp
end JJS
