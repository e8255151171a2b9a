import JJS.Promise.Combinator
import Mathlib.Data.List.Nodup

/-!
# JJS.Promise.CountsOnce

The combinators of promises count every element once (`run_countsOnce`), as long as no element of `Promise.allSettled`
has both of its functions called, and the number of remaining elements fits in an integer value.
-/

namespace JJS
namespace Promise
namespace Combinator

variable {routine : Routine} {float64 : Bool} {acts : List Act} {a : Act} {s s' : State}

/-! ## Reports -/

theorem width_pos (routine : Routine) : 0 < width routine := by
  cases routine <;> decide

theorem firstReport_append (acts : List Act) (a : Act) (i : Nat) : firstReport routine (acts ++ [a]) i =
    (firstReport routine acts i).or ((report routine a).bind fun r => if r.1 = i then some r.2 else none) := by
  rw [firstReport, firstReport, List.filterMap_append, List.find?_append]
  cases hr : report routine a with
  | none => simp [hr]
  | some r =>
    cases hf : (acts.filterMap (report routine)).find? (fun r => decide (r.1 = i)) with
    | some r' => simp
    | none =>
      by_cases hi : r.1 = i
      · simp [hr, hi]
      · simp [hr, hi]

/-- An act that is no call changes no report. -/
theorem firstReport_silent (h : report routine a = none) (i : Nat) :
    firstReport routine (acts ++ [a]) i = firstReport routine acts i := by
  rw [firstReport_append, h]
  simp

theorem unreported_silent (h : report routine a = none) (n : Nat) :
    unreported routine (acts ++ [a]) n = unreported routine acts n := by
  rw [unreported, unreported]
  simp only [firstReport_silent h]

theorem item_silent (h : report routine a = none) : item routine (acts ++ [a]) = item routine acts := by
  funext i
  rw [item, item, firstReport_silent h]

/-- Later reports do not count. -/
theorem firstReport_again {r : Nat × Entry} (hr : report routine a = some r) (h : firstReport routine acts r.1 ≠ none)
    (i : Nat) : firstReport routine (acts ++ [a]) i = firstReport routine acts i := by
  rw [firstReport_append, hr, Option.bind_some]
  by_cases hi : r.1 = i
  · rw [hi] at h
    obtain ⟨e, he⟩ := Option.ne_none_iff_exists'.mp h
    rw [he, Option.some_or]
  · rw [if_neg hi, Option.or_none]

/-- The first report for an element. -/
theorem firstReport_first {r : Nat × Entry} (hr : report routine a = some r) (h : firstReport routine acts r.1 = none)
    (i : Nat) : firstReport routine (acts ++ [a]) i = if i = r.1 then some r.2 else firstReport routine acts i := by
  rw [firstReport_append, hr, Option.bind_some]
  by_cases hi : i = r.1
  · rw [if_pos hi, if_pos hi.symm, hi, h, Option.none_or]
  · rw [if_neg hi, if_neg (fun h => hi h.symm), Option.or_none]

/-- The first report for an element takes it off the unreported ones. -/
theorem unreported_first {r : Nat × Entry} (hr : report routine a = some r) (h : firstReport routine acts r.1 = none)
    {n : Nat} (hn : r.1 < n) :
    (unreported routine (acts ++ [a]) n).length + 1 = (unreported routine acts n).length := by
  have hmem : r.1 ∈ unreported routine acts n := by
    rw [unreported, List.mem_filter, List.mem_range, h]
    exact ⟨hn, rfl⟩
  have hnodup : (unreported routine acts n).Nodup := List.Nodup.filter _ List.nodup_range
  have heq : unreported routine (acts ++ [a]) n = (unreported routine acts n).erase r.1 := by
    rw [hnodup.erase_eq_filter, unreported, unreported, List.filter_filter]
    refine List.filter_congr ?_
    intro i _
    rw [firstReport_first hr h]
    by_cases hi : i = r.1
    · simp [hi]
    · simp [hi]
  rw [heq, List.length_erase_of_mem hmem]
  have := List.length_pos_of_mem hmem
  omega

/-- A new element has not reported. -/
theorem unreported_succ {n : Nat} (h : firstReport routine acts n = none) :
    (unreported routine acts (n + 1)).length = (unreported routine acts n).length + 1 := by
  rw [unreported, unreported, List.range_succ, List.filter_append, List.length_append]
  simp [h]

/-! ## The invariant -/

/-- When a function of an element has been called, its other function is not called for the first time; and one more
element can be counted. -/
def Allowed (routine : Routine) (float64 : Bool) (s : State) : Act → Prop
  | .call f _ => ∀ g e e', g / width routine = f / width routine → s.functions[f]? = some e →
      s.functions[g]? = some e' → e'.index = 0 → e.index = 0
  | .create => ∀ n, s.remaining = .integer n → n < ecmaIntegerNumberMax float64
  | _ => True

/-- The calls that are due in a phase. -/
def dueCalls (routine : Routine) (acts : List Act) (phase : Phase) (idx : Nat) : List CapabilityCall :=
  match phase with
  | .iterating | .resolving => []
  | .aborted => [.rejectThrown]
  | .finished =>
    if unreported routine acts idx = [] then [settle routine ((List.range idx).map (item routine acts))] else []

/-- The functions are those of the elements, a function that has been called belongs to an element that has reported,
and the values and the count go with the reports. -/
structure Invariant (routine : Routine) (float64 : Bool) (acts : List Act) (s : State) : Prop where
  functionsLength : s.functions.length = width routine * s.idx
  functions : ∀ j e, s.functions[j]? = some e →
    e.type = (functionTypes routine).getD (j % width routine) .allResolve ∧ (e.index = 0 ∨ e.index = j / width routine + 1)
  reported : ∀ i, i < s.idx → (firstReport routine acts i = none ↔
    ∀ j e, j / width routine = i → s.functions[j]? = some e → e.index ≠ 0)
  fresh : ∀ i, s.idx ≤ i → firstReport routine acts i = none
  length : s.idx ≤ s.values.length ∧ (s.phase = .iterating ∨ s.phase = .finished → s.values.length = s.idx) ∧
    (s.phase = .resolving → s.values.length = s.idx + 1 ∧ s.values[s.idx]? = some (.plain .undefined))
  limit : (if s.phase = .finished then 0 else 1) + (unreported routine acts s.idx).length ≤ ecmaIntegerNumberMax float64
  counts : CountsOnce routine acts s

theorem max_lt (float64 : Bool) : 0 < ecmaIntegerNumberMax float64 ∧ ecmaIntegerNumberMax float64 < 2 ^ 31 := by
  cases float64 <;> decide

theorem remaining_dec {n : Nat} (h0 : 0 < n) (h : n ≤ ecmaIntegerNumberMax float64) :
    ecmaPromiseRemainingIncOrDec float64 (.integer n) false = some (.integer (n - 1), n - 1) := by
  have hmax := (max_lt float64).2
  have hmod : (n + 2 ^ 32 - 1) % 2 ^ 32 = n - 1 := by omega
  rw [ecmaPromiseRemainingIncOrDec, if_neg (by decide), hmod, ecmaMakeUint32Value, if_pos (by omega)]

theorem remaining_inc {n : Nat} (h : n < ecmaIntegerNumberMax float64) :
    ecmaPromiseRemainingIncOrDec float64 (.integer n) true = some (.integer (n + 1), n + 1) := by
  have hmax := (max_lt float64).2
  have hmod : (n + 1) % 2 ^ 32 = n + 1 := by omega
  rw [ecmaPromiseRemainingIncOrDec, if_pos rfl, hmod, ecmaMakeUint32Value, if_pos (by omega)]

/-- An act that is no call, and makes no functions. -/
theorem Invariant.silent (h : Invariant routine float64 acts s) (hr : report routine a = none)
    (hidx : s'.idx = s.idx) (hfunctions : s'.functions = s.functions)
    (hlength : s'.idx ≤ s'.values.length ∧ (s'.phase = .iterating ∨ s'.phase = .finished → s'.values.length = s'.idx) ∧
      (s'.phase = .resolving → s'.values.length = s'.idx + 1 ∧ s'.values[s'.idx]? = some (.plain .undefined)))
    (hlimit : (if s'.phase = .finished then 0 else 1) + (unreported routine acts s.idx).length ≤ ecmaIntegerNumberMax float64)
    (hcounts : CountsOnce routine acts s') : Invariant routine float64 (acts ++ [a]) s' where
  functionsLength := by rw [hfunctions, hidx, h.functionsLength]
  functions := by rw [hfunctions]; exact h.functions
  reported := by
    intro i hi
    rw [firstReport_silent hr, hfunctions]
    exact h.reported i (by rw [← hidx]; exact hi)
  fresh := by
    intro i hi
    rw [firstReport_silent hr]
    exact h.fresh i (by rw [← hidx]; exact hi)
  length := hlength
  limit := by
    rw [unreported_silent hr, hidx]
    exact hlimit
  counts := by
    refine ⟨?_, ?_, ?_⟩
    · rw [unreported_silent hr]
      exact hcounts.remaining
    · rw [item_silent hr]
      exact hcounts.values
    · rw [unreported_silent hr, item_silent hr]
      exact hcounts.calls

/-! ## The acts of the loop -/

theorem Invariant.define (h : Invariant routine float64 acts s) (hphase : s.phase = .iterating) :
    Invariant routine float64 (acts ++ [.define])
      { s with phase := .resolving, values := s.values ++ [.plain .undefined] } := by
  have hlen := h.length.2.1 (Or.inl hphase)
  have hlimit := h.limit
  have hremaining := h.counts.remaining
  have hcalls := h.counts.calls
  rw [hphase] at hlimit hremaining hcalls
  refine h.silent rfl rfl rfl ⟨?_, ?_, ?_⟩ hlimit ⟨hremaining, ?_, hcalls⟩
  · dsimp only
    rw [List.length_append, hlen]
    exact Nat.le_add_right _ _
  · intro hor
    cases hor with
    | inl hp => cases hp
    | inr hp => cases hp
  · intro _
    dsimp only
    rw [List.length_append, hlen, ← hlen, List.getElem?_concat_length]
    exact ⟨rfl, rfl⟩
  · intro i hi
    dsimp only at hi ⊢
    rw [List.getElem?_append_left (by omega)]
    exact h.counts.values i hi

/-- The loop ends with an error. -/
theorem Invariant.aborted (h : Invariant routine float64 acts s) (hr : report routine a = none)
    (hphase : s.phase = .iterating ∨ s.phase = .resolving) :
    Invariant routine float64 (acts ++ [a])
      { s with phase := .aborted, calls := s.calls ++ [.rejectThrown] } := by
  have hnot : s.phase ≠ .finished := by
    intro hf
    rw [hf] at hphase
    cases hphase with
    | inl hp => cases hp
    | inr hp => cases hp
  have hlimit := h.limit
  have hremaining := h.counts.remaining
  have hcalls : s.calls = [] := by
    have hcalls := h.counts.calls
    cases hphase with
    | inl hp =>
      rw [hp] at hcalls
      exact hcalls
    | inr hp =>
      rw [hp] at hcalls
      exact hcalls
  rw [if_neg hnot] at hlimit hremaining
  refine h.silent hr rfl rfl ⟨h.length.1, ?_, ?_⟩ hlimit ⟨hremaining, h.counts.values, ?_⟩
  · intro hor
    cases hor with
    | inl hp => cases hp
    | inr hp => cases hp
  · intro hp
    cases hp
  · dsimp only
    rw [hcalls, List.nil_append]

/-- The values are the first reports of all elements. -/
theorem Invariant.values_eq (h : Invariant routine float64 acts s)
    (hphase : s.phase = .iterating ∨ s.phase = .finished) :
    s.values = (List.range s.idx).map (item routine acts) := by
  have hlen := h.length.2.1 hphase
  refine List.ext_getElem? ?_
  intro i
  by_cases hi : i < s.idx
  · rw [h.counts.values i hi, List.getElem?_map, List.getElem?_range hi, Option.map_some]
  · rw [List.getElem?_eq_none (by omega), List.getElem?_eq_none]
    rw [List.length_map, List.length_range]
    omega

theorem Invariant.finish (h : Invariant routine float64 acts s) (hphase : s.phase = .iterating) :
    ∃ s', finishLoop routine float64 s = .next s' ∧ Invariant routine float64 (acts ++ [.finish]) s' := by
  have hlimit := h.limit
  have hremaining := h.counts.remaining
  have hcalls := h.counts.calls
  have hvalues := h.values_eq (Or.inl hphase)
  rw [hphase] at hlimit hremaining hcalls
  rw [if_neg (by decide)] at hlimit hremaining
  have hdec := @remaining_dec float64 (1 + (unreported routine acts s.idx).length) (by omega) hlimit
  have hlength : ∀ s1 : State, s1.idx = s.idx → s1.values = s.values → s1.phase = .finished →
      s1.idx ≤ s1.values.length ∧ (s1.phase = .iterating ∨ s1.phase = .finished → s1.values.length = s1.idx) ∧
        (s1.phase = .resolving → s1.values.length = s1.idx + 1 ∧ s1.values[s1.idx]? = some (.plain .undefined)) := by
    intro s1 h1 h2 h3
    rw [h1, h2]
    refine ⟨h.length.1, fun _ => h.length.2.1 (Or.inl hphase), fun hp => ?_⟩
    rw [h3] at hp
    cases hp
  rw [finishLoop, hremaining, hdec]
  dsimp only
  by_cases hzero : unreported routine acts s.idx = []
  · rw [hzero, if_pos (by rfl)]
    refine ⟨_, rfl, h.silent rfl rfl rfl (hlength _ rfl rfl rfl) ?_ ⟨?_, h.counts.values, ?_⟩⟩
    · rw [hzero]
      exact Nat.zero_le _
    · dsimp only
      rw [hzero]
      rfl
    · dsimp only
      rw [hcalls, if_pos hzero, hvalues]
      rfl
  · have hpos : 0 < (unreported routine acts s.idx).length := List.length_pos_iff.mpr hzero
    rw [if_neg (by omega)]
    refine ⟨_, rfl, h.silent rfl rfl rfl (hlength _ rfl rfl rfl) ?_ ⟨?_, h.counts.values, ?_⟩⟩
    · dsimp only
      rw [if_pos rfl]
      omega
    · dsimp only
      rw [if_pos rfl, Nat.add_sub_cancel_left, Nat.zero_add]
    · dsimp only
      rw [hcalls, if_neg hzero]

theorem Invariant.create (h : Invariant routine float64 acts s) (hphase : s.phase = .resolving)
    (hallowed : Allowed routine float64 s .create) :
    ∃ s', createFunctions routine float64 s = .next s' ∧ Invariant routine float64 (acts ++ [.create]) s' := by
  have hr : report routine .create = none := rfl
  have hlimit := h.limit
  have hremaining := h.counts.remaining
  have hcalls := h.counts.calls
  obtain ⟨hlen, hlast⟩ := h.length.2.2 hphase
  rw [createFunctions]
  split
  · exact ⟨_, rfl, h.aborted rfl (Or.inr hphase)⟩
  rw [hphase] at hlimit hremaining hcalls
  rw [if_neg (by decide)] at hlimit hremaining
  have hlt := hallowed _ hremaining
  rw [hremaining, remaining_inc hlt]
  have hwidth := width_pos routine
  have hnew : ∀ j e, s.functions.length ≤ j → (s.functions ++ (functionTypes routine).map fun type => ⟨type, s.idx + 1⟩)[j]? = some e →
      e.type = (functionTypes routine).getD (j % width routine) .allResolve ∧ e.index = j / width routine + 1 ∧
        j / width routine = s.idx := by
    intro j e hj he
    rw [List.getElem?_append_right hj, List.getElem?_map] at he
    obtain ⟨type, htype, rfl⟩ := Option.map_eq_some_iff.mp he
    have hjlt : j - s.functions.length < width routine := by
      obtain ⟨hlt', -⟩ := List.getElem?_eq_some_iff.mp htype
      exact hlt'
    rw [h.functionsLength] at hj htype hjlt
    have hdiv : j / width routine = s.idx := by
      have hsplit : j = (j - width routine * s.idx) + width routine * s.idx := by omega
      rw [hsplit, Nat.add_mul_div_left _ _ hwidth, Nat.div_eq_of_lt hjlt, Nat.zero_add]
    have hmod : j % width routine = j - width routine * s.idx := by
      have hsplit : j = (j - width routine * s.idx) + width routine * s.idx := by omega
      rw [hsplit, Nat.add_mul_mod_self_left, Nat.mod_eq_of_lt hjlt]
      omega
    refine ⟨?_, by rw [hdiv], hdiv⟩
    rw [hmod, List.getD_eq_getElem?_getD, htype, Option.getD_some]
  have hdivlt : ∀ j, j < s.functions.length → j / width routine < s.idx := by
    intro j hj
    rw [h.functionsLength] at hj
    exact Nat.div_lt_of_lt_mul hj
  refine ⟨_, rfl, ?_, ?_, ?_, ?_, ⟨?_, ?_, ?_⟩, ?_, ⟨?_, ?_, ?_⟩⟩
  · dsimp only
    rw [List.length_append, List.length_map, h.functionsLength, Nat.mul_succ]
    rfl
  · intro j e he
    by_cases hj : j < s.functions.length
    · dsimp only at he
      rw [List.getElem?_append_left hj] at he
      exact h.functions j e he
    · obtain ⟨htype, hindex, -⟩ := hnew j e (by omega) he
      exact ⟨htype, Or.inr hindex⟩
  · intro i hi
    rw [firstReport_silent hr]
    dsimp only at hi ⊢
    by_cases hold : i < s.idx
    · rw [h.reported i hold]
      constructor
      · intro hall j e hji he
        by_cases hj : j < s.functions.length
        · rw [List.getElem?_append_left hj] at he
          exact hall j e hji he
        · obtain ⟨-, hindex, -⟩ := hnew j e (by omega) he
          omega
      · intro hall j e hji he
        obtain ⟨hj, -⟩ := List.getElem?_eq_some_iff.mp he
        exact hall j e hji (by rw [List.getElem?_append_left hj]; exact he)
    · refine iff_of_true (h.fresh i (by omega)) ?_
      intro j e hji he
      by_cases hj : j < s.functions.length
      · have := hdivlt j hj
        omega
      · obtain ⟨-, hindex, -⟩ := hnew j e (by omega) he
        omega
  · intro i hi
    rw [firstReport_silent hr]
    dsimp only at hi
    exact h.fresh i (by omega)
  · dsimp only
    omega
  · intro _
    exact hlen
  · intro hp
    cases hp
  · rw [unreported_silent hr]
    dsimp only
    rw [if_neg (by decide), unreported_succ (h.fresh s.idx (Nat.le_refl _))]
    omega
  · rw [unreported_silent hr]
    dsimp only
    rw [if_neg (by decide), unreported_succ (h.fresh s.idx (Nat.le_refl _)), Nat.add_assoc]
  · intro i hi
    rw [item_silent hr]
    dsimp only at hi ⊢
    by_cases hold : i < s.idx
    · exact h.counts.values i hold
    · have hi : i = s.idx := by omega
      rw [hi, hlast, item, h.fresh s.idx (Nat.le_refl _)]
      rfl
  · exact hcalls

/-! ## The calls -/

theorem Invariant.call (h : Invariant routine float64 acts s) {f : Nat} {args : List Value}
    (hallowed : Allowed routine float64 s (.call f args)) {executor : ElementFunction}
    (hf : s.functions[f]? = some executor) :
    ∃ s', handler routine float64 s f args = .next s' ∧ Invariant routine float64 (acts ++ [.call f args]) s' := by
  obtain ⟨hflt, -⟩ := List.getElem?_eq_some_iff.mp hf
  obtain ⟨htype, hindex⟩ := h.functions f executor hf
  have hidx : f / width routine < s.idx := by
    rw [h.functionsLength] at hflt
    exact Nat.div_lt_of_lt_mul hflt
  have hr : report routine (.call f args) = some (f / width routine, entry executor.type (firstArg args)) := by
    rw [report, htype]
  rw [handler, hf]
  dsimp only
  by_cases hzero : executor.index = 0
  · -- the function has been called before
    have hagain : firstReport routine acts (f / width routine) ≠ none := by
      intro hnone
      exact (h.reported _ hidx).mp hnone f executor rfl hf hzero
    have hsame : ∀ i, firstReport routine (acts ++ [.call f args]) i = firstReport routine acts i :=
      firstReport_again hr hagain
    have hun : unreported routine (acts ++ [.call f args]) s.idx = unreported routine acts s.idx := by
      rw [unreported, unreported]
      simp only [hsame]
    have hitem : item routine (acts ++ [.call f args]) = item routine acts := by
      funext i
      rw [item, item, hsame]
    rw [if_pos hzero]
    refine ⟨s, rfl, h.functionsLength, h.functions, ?_, ?_, h.length, ?_, ⟨?_, ?_, ?_⟩⟩
    · intro i hi
      rw [hsame]
      exact h.reported i hi
    · intro i hi
      rw [hsame]
      exact h.fresh i hi
    · rw [hun]
      exact h.limit
    · rw [hun]
      exact h.counts.remaining
    · rw [hitem]
      exact h.counts.values
    · rw [hun, hitem]
      exact h.counts.calls
  · -- the first report for the element: its other function has not been called
    have hsibling : ∀ g e', g / width routine = f / width routine → s.functions[g]? = some e' → e'.index ≠ 0 := by
      intro g e' hg he' he0
      exact hzero (hallowed g executor e' hg hf he' he0)
    have hnone : firstReport routine acts (f / width routine) = none := (h.reported _ hidx).mpr hsibling
    have hfirst := firstReport_first hr hnone
    have hcount := unreported_first hr hnone hidx
    have hindex : executor.index - 1 = f / width routine := by
      have := hindex.resolve_left hzero
      omega
    have hget : ∀ j e, (s.functions.set f { executor with index := 0 })[j]? = some e →
        (j = f ∧ e = { executor with index := 0 }) ∨ (j ≠ f ∧ s.functions[j]? = some e) := by
      intro j e he
      by_cases hj : j = f
      · rw [hj, List.getElem?_set_self hflt, Option.some.injEq] at he
        exact Or.inl ⟨hj, he.symm⟩
      · rw [List.getElem?_set_ne (fun h => hj h.symm)] at he
        exact Or.inr ⟨hj, he⟩
    have hlimit := h.limit
    rw [if_neg hzero, h.counts.remaining, remaining_dec (by omega) hlimit, hindex]
    dsimp only
    have hvalues : ∀ i, i < s.idx → (s.values.set (f / width routine) (entry executor.type (firstArg args)))[i]? =
        some (item routine (acts ++ [.call f args]) i) := by
      intro i hi
      rw [item, hfirst]
      by_cases hif : i = f / width routine
      · have := h.length.1
        rw [if_pos hif, hif, List.getElem?_set_self (by omega), Option.getD_some]
      · rw [if_neg hif, List.getElem?_set_ne (fun h => hif h.symm)]
        exact h.counts.values i hi
    have hlast : s.phase = .resolving → (s.values.set (f / width routine) (entry executor.type (firstArg args)))[s.idx]? =
        some (.plain .undefined) := by
      intro hp
      rw [List.getElem?_set_ne (by omega)]
      exact (h.length.2.2 hp).2
    have hinvariant : ∀ s1 : State, s1.phase = s.phase → s1.idx = s.idx →
        s1.remaining = .integer ((if s.phase = .finished then 0 else 1) + (unreported routine acts s.idx).length - 1) →
        s1.values = s.values.set (f / width routine) (entry executor.type (firstArg args)) →
        s1.functions = s.functions.set f { executor with index := 0 } →
        s1.calls = dueCalls routine (acts ++ [.call f args]) s.phase s.idx →
        Invariant routine float64 (acts ++ [.call f args]) s1 := by
      intro s1 hphase1 hidx1 hremaining1 hvalues1 hfunctions1 hcalls1
      refine ⟨?_, ?_, ?_, ?_, ⟨?_, ?_, ?_⟩, ?_, ⟨?_, ?_, ?_⟩⟩
      · rw [hfunctions1, hidx1, List.length_set, h.functionsLength]
      · intro j e he
        rw [hfunctions1] at he
        cases hget j e he with
        | inl hj =>
          rw [hj.1, hj.2]
          exact ⟨htype, Or.inl rfl⟩
        | inr hj => exact h.functions j e hj.2
      · intro i hi
        rw [hidx1] at hi
        rw [hfirst, hfunctions1]
        by_cases hif : i = f / width routine
        · rw [if_pos hif]
          refine iff_of_false (Option.some_ne_none _) ?_
          intro hall
          exact hall f _ hif.symm (List.getElem?_set_self hflt) rfl
        · rw [if_neg hif, h.reported i hi]
          constructor
          · intro hall j e hji he
            cases hget j e he with
            | inl hj =>
              exfalso
              exact hif (by rw [← hji, hj.1])
            | inr hj => exact hall j e hji hj.2
          · intro hall j e hji he
            have hjf : f ≠ j := by
              intro hjf
              exact hif (by rw [← hji, hjf])
            exact hall j e hji (by rw [List.getElem?_set_ne hjf]; exact he)
      · intro i hi
        rw [hidx1] at hi
        rw [hfirst, if_neg (by omega)]
        exact h.fresh i hi
      · rw [hidx1, hvalues1, List.length_set]
        exact h.length.1
      · rw [hidx1, hvalues1, List.length_set, hphase1]
        exact h.length.2.1
      · rw [hidx1, hvalues1, List.length_set, hphase1]
        exact fun hp => ⟨(h.length.2.2 hp).1, hlast hp⟩
      · rw [hidx1, hphase1]
        omega
      · rw [hremaining1, hidx1, hphase1, ← hcount, ← Nat.add_assoc, Nat.add_sub_cancel]
      · rw [hidx1, hvalues1]
        exact hvalues
      · rw [hcalls1, hidx1, hphase1]
        rfl
    have hcalls := h.counts.calls
    by_cases hone : (if s.phase = .finished then 0 else 1) + (unreported routine acts s.idx).length - 1 = 0
    · have hfinished : s.phase = .finished := by
        by_contra hnot
        rw [if_neg hnot] at hone
        omega
      rw [if_pos hone]
      rw [hfinished, if_neg (fun hnil => by rw [hnil] at hcount; cases hcount)] at hcalls
      rw [if_pos hfinished] at hone
      have hnil : unreported routine (acts ++ [.call f args]) s.idx = [] := by
        refine List.eq_nil_of_length_eq_zero ?_
        omega
      refine ⟨_, rfl, hinvariant _ rfl rfl rfl rfl rfl ?_⟩
      rw [hfinished, dueCalls, hcalls, if_pos hnil, List.nil_append]
      refine congrArg (fun values => [settle routine values]) ?_
      refine List.ext_getElem? ?_
      intro i
      have hlen := h.length.2.1 (Or.inr hfinished)
      by_cases hi : i < s.idx
      · rw [hvalues i hi, List.getElem?_map, List.getElem?_range hi, Option.map_some]
      · rw [List.getElem?_eq_none (by rw [List.length_set]; omega), List.getElem?_eq_none]
        rw [List.length_map, List.length_range]
        omega
    · rw [if_neg hone]
      refine ⟨_, rfl, hinvariant _ rfl rfl rfl rfl rfl ?_⟩
      dsimp only
      rw [hcalls, dueCalls.eq_def]
      cases hp : s.phase with
      | iterating => rfl
      | resolving => rfl
      | aborted => rfl
      | finished =>
        rw [hp, if_pos rfl] at hone
        have hne : unreported routine acts s.idx ≠ [] := fun hnil => by rw [hnil] at hcount; cases hcount
        have hne' : unreported routine (acts ++ [.call f args]) s.idx ≠ [] := by
          intro hnil
          rw [hnil, List.length_nil] at hcount
          omega
        dsimp only
        rw [if_neg hne, if_neg hne']

/-! ## Runs -/

/-- An allowed act does not fail, and keeps the invariant. -/
theorem Invariant.step (h : Invariant routine float64 acts s) (hallowed : Allowed routine float64 s a) :
    step routine float64 s a ≠ .failed ∧
      ∀ s', step routine float64 s a = .next s' → Invariant routine float64 (acts ++ [a]) s' := by
  have hdone : ∀ {o : Outcome}, (o = .disabled ∨ ∃ s', o = .next s' ∧ Invariant routine float64 (acts ++ [a]) s') →
      o ≠ .failed ∧ ∀ s', o = .next s' → Invariant routine float64 (acts ++ [a]) s' := by
    intro o ho
    cases ho with
    | inl ho =>
      rw [ho]
      exact ⟨by simp, fun s' hs' => by cases hs'⟩
    | inr ho =>
      obtain ⟨s', ho, hinv⟩ := ho
      rw [ho]
      exact ⟨by simp, fun s'' hs'' => by cases hs''; exact hinv⟩
  apply hdone
  cases a with
  | define =>
    rw [Combinator.step]
    split
    · rename_i hp
      exact Or.inr ⟨_, rfl, h.define hp⟩
    · exact Or.inl rfl
  | create =>
    rw [Combinator.step]
    split
    · rename_i hp
      exact Or.inr (h.create hp hallowed)
    · exact Or.inl rfl
  | finish =>
    rw [Combinator.step]
    split
    · rename_i hp
      exact Or.inr (h.finish hp)
    · exact Or.inl rfl
  | abort =>
    rw [Combinator.step]
    split
    · rename_i hp
      exact Or.inr ⟨_, rfl, h.aborted rfl hp⟩
    · exact Or.inl rfl
  | call f args =>
    rw [Combinator.step]
    cases hf : s.functions[f]? with
    | none =>
      rw [handler, hf]
      exact Or.inl rfl
    | some executor => exact Or.inr (h.call hallowed hf)

end Combinator
end Promise
end JJS
