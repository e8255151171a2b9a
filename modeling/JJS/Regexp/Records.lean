import JJS.Regexp.Run
import JJS.Regexp.Valid

/-!
# JJS.Regexp.Records

What the matcher remembers of a group: where its body is, which captures are in it, and the number of the iteration.
The start of the group writes it down for the end. All other updates are about where captures begin and end.
-/

namespace JJS
namespace Regexp

open Utf8 Lit Strings

/-- Where the body of a group is, and which captures are in it. -/
structure Place where
  bc : Nat
  subcaptureStart : Nat
  subcaptureCount : Nat

/-- The place of a group, and the number of its iteration. -/
structure Record where
  place : Place
  iterator : BitVec 32

/-- The captures of a capturing group start with its own. -/
def Capture.record (c : Capture) (idx : Nat) : Record := ⟨⟨c.bc, idx, c.subcaptureCount.toNat⟩, c.iterator⟩

def NonCapture.record (c : NonCapture) : Record :=
  ⟨⟨c.bc, c.subcaptureStart.toNat, c.subcaptureCount.toNat⟩, c.iterator⟩

namespace Matcher

/-- The record of a group. -/
def record (st : Matcher) : GroupId → Option Record
  | (true, idx) => (st.captures[idx]?).map fun c => c.record idx
  | (false, idx) => (st.nonCaptures[idx]?).map NonCapture.record

/-- The tables have these sizes. -/
structure Sized (captures nonCaptures : Nat) (st : Matcher) : Prop where
  captures_eq : st.captures.length = captures
  nonCaptures_eq : st.nonCaptures.length = nonCaptures

/-! ## Updates -/

/-- The record of one group is updated. -/
structure Updated (st st' : Matcher) (g : GroupId) (f : Record → Record) : Prop where
  captures_eq : st'.captures.length = st.captures.length
  nonCaptures_eq : st'.nonCaptures.length = st.nonCaptures.length
  self : st'.record g = (st.record g).map f
  other : ∀ g', g' ≠ g → st'.record g' = st.record g'

/-- No record is updated. -/
structure SameRecords (st st' : Matcher) : Prop where
  captures_eq : st'.captures.length = st.captures.length
  nonCaptures_eq : st'.nonCaptures.length = st.nonCaptures.length
  record_eq : ∀ g, st'.record g = st.record g

theorem SameRecords.refl (st : Matcher) : SameRecords st st := ⟨rfl, rfl, fun _ => rfl⟩

theorem SameRecords.trans {st st' st'' : Matcher} (h : SameRecords st st') (h' : SameRecords st' st'') :
    SameRecords st st'' :=
  ⟨h'.captures_eq.trans h.captures_eq, h'.nonCaptures_eq.trans h.nonCaptures_eq,
    fun g => (h'.record_eq g).trans (h.record_eq g)⟩

theorem Updated.trans {st st' st'' : Matcher} {g : GroupId} {f f' : Record → Record} (h : Updated st st' g f)
    (h' : Updated st' st'' g f') : Updated st st'' g (f' ∘ f) := by
  refine ⟨h'.captures_eq.trans h.captures_eq, h'.nonCaptures_eq.trans h.nonCaptures_eq, ?_, ?_⟩
  · rw [h'.self, h.self, Option.map_map]
  · intro g' hg'
    rw [h'.other g' hg', h.other g' hg']

theorem Updated.same {st st' : Matcher} {g : GroupId} (h : Updated st st' g id) : SameRecords st st' := by
  refine ⟨h.captures_eq, h.nonCaptures_eq, ?_⟩
  intro g'
  by_cases hg : g' = g
  · rw [hg, h.self, Option.map_id, id]
  · exact h.other g' hg

theorem SameRecords.updated {st st' st'' : Matcher} {g : GroupId} {f : Record → Record} (h : SameRecords st st')
    (h' : Updated st' st'' g f) : Updated st st'' g f := by
  refine ⟨h'.captures_eq.trans h.captures_eq, h'.nonCaptures_eq.trans h.nonCaptures_eq, ?_, ?_⟩
  · rw [h'.self, h.record_eq]
  · intro g' hg'
    rw [h'.other g' hg', h.record_eq]

section

variable {st : Matcher} {idx : Nat}

/-- An update of a capture that does to its record what `f` does. -/
theorem updateCapture_spec {update : Capture → Capture} (f : Record → Record) (h : idx < st.captures.length)
    (hf : ∀ c, (update c).record idx = f (c.record idx)) :
    ∃ st', st.updateCapture idx update = some st' ∧ Updated st st' (true, idx) f := by
  refine ⟨{ st with captures := st.captures.modify idx update }, if_pos h, ⟨List.length_modify _ _ _, rfl, ?_, ?_⟩⟩
  · show Option.map _ (st.captures.modify idx update)[idx]? = Option.map f (Option.map _ st.captures[idx]?)
    rw [List.getElem?_modify_eq, List.getElem?_eq_getElem h]
    exact congrArg some (hf _)
  · intro g hg
    match g with
    | (false, i) => rfl
    | (true, i) =>
      have hi : idx ≠ i := fun heq => hg (by rw [heq])
      show Option.map _ (st.captures.modify idx update)[i]? = Option.map _ st.captures[i]?
      rw [List.getElem?_modify_ne update _ hi]

theorem updateNonCapture_spec {update : NonCapture → NonCapture} (f : Record → Record) (h : idx < st.nonCaptures.length)
    (hf : ∀ c, (update c).record = f c.record) :
    ∃ st', st.updateNonCapture idx update = some st' ∧ Updated st st' (false, idx) f := by
  refine ⟨{ st with nonCaptures := st.nonCaptures.modify idx update }, if_pos h, ⟨rfl, List.length_modify _ _ _, ?_, ?_⟩⟩
  · show Option.map _ (st.nonCaptures.modify idx update)[idx]? = Option.map f (Option.map _ st.nonCaptures[idx]?)
    rw [List.getElem?_modify_eq, List.getElem?_eq_getElem h]
    exact congrArg some (hf _)
  · intro g hg
    match g with
    | (true, i) => rfl
    | (false, i) =>
      have hi : idx ≠ i := fun heq => hg (by rw [heq])
      show Option.map _ (st.nonCaptures.modify idx update)[i]? = Option.map _ st.nonCaptures[i]?
      rw [List.getElem?_modify_ne update _ hi]

/-- Where a capture begins and ends is no part of a record. -/
theorem updateCapture_same {update : Capture → Capture} (h : idx < st.captures.length)
    (hf : ∀ c, (update c).record idx = c.record idx) :
    ∃ st', st.updateCapture idx update = some st' ∧ SameRecords st st' := by
  obtain ⟨st', hst', hupdated⟩ := updateCapture_spec id h hf
  exact ⟨st', hst', hupdated.same⟩

theorem updateNonCapture_same {update : NonCapture → NonCapture} (h : idx < st.nonCaptures.length)
    (hf : ∀ c, (update c).record = c.record) :
    ∃ st', st.updateNonCapture idx update = some st' ∧ SameRecords st st' := by
  obtain ⟨st', hst', hupdated⟩ := updateNonCapture_spec id h hf
  exact ⟨st', hst', hupdated.same⟩

theorem clearBegins_same {first count : Nat} (h : first + count ≤ st.captures.length) :
    ∃ st', st.clearBegins first count = some st' ∧ SameRecords st st' := by
  induction count with
  | zero => exact ⟨st, rfl, SameRecords.refl st⟩
  | succ count ih =>
    obtain ⟨st₁, hst₁, hsame₁⟩ := ih (by omega)
    have hlt : first + count < st₁.captures.length := by
      rw [hsame₁.captures_eq]
      omega
    obtain ⟨st₂, hst₂, hsame₂⟩ := @updateCapture_same st₁ _ (fun c => { c with beginP := none }) hlt (fun _ => rfl)
    refine ⟨st₂, ?_, hsame₁.trans hsame₂⟩
    rw [clearBegins, hst₁]
    exact hst₂

theorem restoreBegins_same {first : Nat} {saved : List (Option Nat)} (h : first + saved.length ≤ st.captures.length) :
    ∃ st', restoreBegins first saved st = some st' ∧ SameRecords st st' := by
  induction saved generalizing first st with
  | nil => exact ⟨st, rfl, SameRecords.refl st⟩
  | cons b saved ih =>
    rw [List.length_cons] at h
    obtain ⟨st₁, hst₁, hsame₁⟩ :=
      @updateCapture_same st first (fun c => { c with beginP := b }) (by omega) (fun _ => rfl)
    obtain ⟨st₂, hst₂, hsame₂⟩ := @ih st₁ (first + 1) (by rw [hsame₁.captures_eq]; omega)
    refine ⟨st₂, ?_, hsame₁.trans hsame₂⟩
    rw [restoreBegins, hst₁]
    exact hst₂

theorem restoreEnds_same {first : Nat} {saved : List (Option Nat)} (h : first + saved.length ≤ st.captures.length) :
    ∃ st', restoreEnds first saved st = some st' ∧ SameRecords st st' := by
  induction saved generalizing first st with
  | nil => exact ⟨st, rfl, SameRecords.refl st⟩
  | cons e saved ih =>
    rw [List.length_cons] at h
    obtain ⟨st₁, hst₁, hsame₁⟩ :=
      @updateCapture_same st first (fun c => { c with beginP := none, endP := e }) (by omega) (fun _ => rfl)
    obtain ⟨st₂, hst₂, hsame₂⟩ := @ih st₁ (first + 1) (by rw [hsame₁.captures_eq]; omega)
    refine ⟨st₂, ?_, hsame₁.trans hsame₂⟩
    rw [restoreEnds, hst₁]
    exact hst₂

theorem length_savedBegins (first count : Nat) : (st.savedBegins first count).length = count := by
  rw [savedBegins, List.length_map, List.length_range]

theorem length_savedEnds (first count : Nat) : (st.savedEnds first count).length = count := by
  rw [savedEnds, List.length_map, List.length_range]

end

end Matcher

/-! ## What is kept -/

section

variable (info : GroupId → Place)

/-- What a part of a run keeps: the places that are right, and the iterators of some groups. -/
structure Kept (same : GroupId → Prop) (st st' : Matcher) : Prop where
  captures_eq : st'.captures.length = st.captures.length
  nonCaptures_eq : st'.nonCaptures.length = st.nonCaptures.length
  kept : ∀ g r, st.record g = some r → ∃ r', st'.record g = some r' ∧ (r.place = info g → r'.place = info g) ∧
    (same g → r'.iterator = r.iterator)

/-- The groups that are open have their places, and these iterators. -/
structure Agree (captures nonCaptures : Nat) (opened : List GroupId) (iterators : GroupId → BitVec 32) (st : Matcher) :
    Prop where
  sized : st.Sized captures nonCaptures
  record_eq : ∀ g ∈ opened, st.record g = some ⟨info g, iterators g⟩

variable {info} {same same' : GroupId → Prop} {st st' st'' : Matcher} {g : GroupId}

theorem Matcher.SameRecords.kept (h : Matcher.SameRecords st st') : Kept info same st st' := by
  refine ⟨h.captures_eq, h.nonCaptures_eq, ?_⟩
  intro g r hr
  exact ⟨r, by rw [h.record_eq, hr], id, fun _ => rfl⟩

theorem Kept.refl (st : Matcher) : Kept info same st st := (Matcher.SameRecords.refl st).kept

theorem Kept.trans (h : Kept info same st st') (h' : Kept info same st' st'') : Kept info same st st'' := by
  refine ⟨h'.captures_eq.trans h.captures_eq, h'.nonCaptures_eq.trans h.nonCaptures_eq, ?_⟩
  intro g r hr
  obtain ⟨r', hr', hplace, hiterator⟩ := h.kept g r hr
  obtain ⟨r'', hr'', hplace', hiterator'⟩ := h'.kept g r' hr'
  exact ⟨r'', hr'', fun hp => hplace' (hplace hp), fun hs => (hiterator' hs).trans (hiterator hs)⟩

theorem Kept.mono (h : Kept info same st st') (hsame : ∀ g, same' g → same g) : Kept info same' st st' := by
  refine ⟨h.captures_eq, h.nonCaptures_eq, ?_⟩
  intro g r hr
  obtain ⟨r', hr', hplace, hiterator⟩ := h.kept g r hr
  exact ⟨r', hr', hplace, fun hs => hiterator (hsame g hs)⟩

/-- One group gets its place, or keeps it; the others keep everything. -/
theorem Matcher.Updated.kept {f : Record → Record} (h : Matcher.Updated st st' g f)
    (hf : ∀ r, r.place = info g → (f r).place = info g) : Kept info (fun g' => g' ≠ g) st st' := by
  refine ⟨h.captures_eq, h.nonCaptures_eq, ?_⟩
  intro g' r hr
  by_cases hg : g' = g
  · refine ⟨f r, ?_, ?_, fun hne => absurd hg hne⟩
    · rw [hg, h.self, ← hg, hr]
      rfl
    · rw [hg]
      exact hf r
  · exact ⟨r, by rw [h.other g' hg, hr], id, fun _ => rfl⟩

/-- The iterator of one group is what it was before. -/
theorem Kept.back (h : Kept info same st st') {r r' : Record} (hr : st.record g = some r) (hr' : st'.record g = some r')
    (heq : r'.iterator = r.iterator) : Kept info (fun g' => g' = g ∨ same g') st st' := by
  refine ⟨h.captures_eq, h.nonCaptures_eq, ?_⟩
  intro g' r₁ hr₁
  obtain ⟨r₂, hr₂, hplace, hiterator⟩ := h.kept g' r₁ hr₁
  refine ⟨r₂, hr₂, hplace, ?_⟩
  intro hs
  rcases hs with rfl | hs
  · rw [hr, Option.some.injEq] at hr₁
    rw [hr', Option.some.injEq] at hr₂
    rw [← hr₁, ← hr₂]
    exact heq
  · exact hiterator hs

variable {captures nonCaptures : Nat} {opened : List GroupId} {iterators : GroupId → BitVec 32}

theorem Matcher.Sized.kept (h : st.Sized captures nonCaptures) (hkept : Kept info same st st') :
    st'.Sized captures nonCaptures :=
  ⟨hkept.captures_eq.trans h.captures_eq, hkept.nonCaptures_eq.trans h.nonCaptures_eq⟩

theorem Agree.kept (h : Agree info captures nonCaptures opened iterators st) (hkept : Kept info same st st')
    (hsame : ∀ g ∈ opened, same g) : Agree info captures nonCaptures opened iterators st' := by
  refine ⟨h.sized.kept hkept, ?_⟩
  intro g hg
  obtain ⟨r, hr, hplace, hiterator⟩ := hkept.kept g _ (h.record_eq g hg)
  rw [hr, Option.some.injEq]
  have hplace := hplace rfl
  have hiterator := hiterator (hsame g hg)
  cases r
  exact congr (congrArg Record.mk hplace) hiterator

/-- A group is opened. -/
theorem Agree.cons (h : Agree info captures nonCaptures opened iterators st) (hnot : g ∉ opened) {f : Record → Record}
    {r : Record} {i : BitVec 32} (hr : st.record g = some r) (hupdated : Matcher.Updated st st' g f)
    (hf : f r = ⟨info g, i⟩) :
    Agree info captures nonCaptures (g :: opened) (Function.update iterators g i) st' := by
  refine ⟨⟨hupdated.captures_eq.trans h.sized.captures_eq, hupdated.nonCaptures_eq.trans h.sized.nonCaptures_eq⟩, ?_⟩
  intro g' hg'
  by_cases hg : g' = g
  · rw [hg, hupdated.self, hr, Function.update_self, Option.map_some, hf]
  · have hmem : g' ∈ opened := (List.mem_cons.mp hg').resolve_left hg
    rw [hupdated.other g' hg, Function.update_of_ne hg]
    exact h.record_eq g' hmem

/-- The groups that were open before are open. -/
theorem Agree.tail {i : BitVec 32} (hnot : g ∉ opened)
    (h : Agree info captures nonCaptures (g :: opened) (Function.update iterators g i) st) :
    Agree info captures nonCaptures opened iterators st := by
  refine ⟨h.sized, ?_⟩
  intro g' hg'
  have hne : g' ≠ g := fun heq => hnot (heq ▸ hg')
  rw [h.record_eq g' (List.mem_cons_of_mem g hg'), Function.update_of_ne hne]

end

end Regexp
end JJS
