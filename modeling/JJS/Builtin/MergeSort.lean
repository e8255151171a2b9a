import JJS.Lib.Runs
import JJS.Number

/-!
# JJS.Builtin.MergeSort

The merge sort of arrays (`ecma-builtin-helpers-sort.c`), with a comparator that has a state of its own and may fail
at any call. The runs go to and fro between the array of the caller and a temporary one.

The temporary array is allocated from a heap whose size is a number of 32 bits, so that an array that can be sorted
is shorter than `2 ^ 30` and the indices do not wrap around. What it holds at first is arbitrary.
-/

namespace JJS
namespace MergeSort

open RunSort

variable {σ α : Type}

/-- `ecma_builtin_helper_sort_compare_fn_t`; `none` is `ECMA_VALUE_ERROR`. -/
abbrev SortCompareFn (σ α : Type) := α → α → σ → Option Number × σ

/-- `number <= 0`. -/
def notPositive (x : Number) : Bool := !x.isNan && !x.isPositive

/-- `ECMA_NUMBER_ZERO`. -/
def numberZero : Number := ⟨false, 0#11, 0#52⟩

/-- Why the sort does not return: `jjs_fatal (JJS_FATAL_OUT_OF_MEMORY)`, or a loop that does not end. -/
inductive Stop where
  | outOfMemory
  | endless

section

variable [Inhabited α] (sortCb : SortCompareFn σ α) (source : List α)

/-- The loop of `ecma_builtin_helper_array_merge_sort_bottom_up`, with the number of rounds that are left. The result
is whether no comparison failed, and the output. -/
def bottomUpLoop (rightIdx endIdx : Nat) : Nat → Nat → Nat → Nat → List α → σ → (Bool × List α) × σ
  | 0, _, _, _, output, s => ((true, output), s)
  | rounds + 1, k, i, j, output, s =>
    let (compareValue, s) :=
      if i < rightIdx ∧ j < endIdx then sortCb (source.getD i default) (source.getD j default) s
      else (some numberZero, s)
    match compareValue with
    | none => ((false, output), s)
    | some compareValue =>
      if i < rightIdx ∧ notPositive compareValue = true then
        bottomUpLoop rightIdx endIdx rounds (k + 1) (i + 1) j (output.set k (source.getD i default)) s
      else bottomUpLoop rightIdx endIdx rounds (k + 1) i (j + 1) (output.set k (source.getD j default)) s

/-- `ecma_builtin_helper_array_merge_sort_bottom_up`. -/
def bottomUp (leftIdx rightIdx endIdx : Nat) (output : List α) (s : σ) : (Bool × List α) × σ :=
  bottomUpLoop sortCb source rightIdx endIdx (endIdx - leftIdx) leftIdx leftIdx rightIdx output s

/-- The loop over the pairs of runs of width `w`. The null case is the bound on the loop. -/
def passLoop (length w : Nat) : Nat → Nat → List α → σ → Option ((Bool × List α) × σ)
  | 0, _, _, _ => none
  | fuel + 1, i, dest, s =>
    if i < length then
      let r := (i + w) % 2 ^ 32
      let r := if length < r then length else r
      let e := (i + 2 * w) % 2 ^ 32
      let e := if length < e then length else e
      let ((ok, dest), s) := bottomUp sortCb source i r e dest s
      if ok then passLoop length w fuel ((i + 2 * w) % 2 ^ 32) dest s else some ((false, dest), s)
    else some ((true, dest), s)

end

/-- The two arrays between passes: `array_p`, `dest_array_p`, and whether `array_p` is the array of the caller. -/
structure Buffers (α : Type) where
  array : List α
  dest : List α
  arrayIsBase : Bool

/-- What the array of the caller holds in the end: when it is `dest_array_p`, it is copied from the other one. -/
def Buffers.result (buffers : Buffers α) (length : Nat) : List α :=
  if buffers.arrayIsBase then buffers.array else buffers.array.take length ++ buffers.dest.drop length

section

variable [Inhabited α] (sortCb : SortCompareFn σ α)

/-- The loop over the widths. The null case is the bound on the loop. -/
def widthLoop (length : Nat) : Nat → Nat → Buffers α → σ → Option ((Bool × Buffers α) × σ)
  | 0, _, _, _ => none
  | fuel + 1, w, buffers, s =>
    if w < length then do
      let ((ok, dest), s) ← passLoop sortCb buffers.array length w (length + 1) 0 buffers.dest s
      if ok then widthLoop length fuel (2 * w % 2 ^ 32) ⟨dest, buffers.array, !buffers.arrayIsBase⟩ s
      else some ((false, { buffers with dest := dest }), s)
    else some ((true, buffers), s)

/-- `ecma_builtin_helper_array_merge_sort_helper`: whether no comparison failed, and the array of the caller. The
largest block that the heap can give has `available` bytes. -/
def ecmaBuiltinHelperArrayMergeSortHelper (available : BitVec 32) (array : List α) (local_ : Fin array.length → α)
    (s : σ) : Except Stop ((Bool × List α) × σ) :=
  if available.toNat < array.length * 4 then .error .outOfMemory
  else
    match widthLoop sortCb array.length (array.length + 1) 1 ⟨array, List.ofFn local_, true⟩ s with
    | none => .error .endless
    | some ((ok, buffers), s) => .ok ((ok, buffers.result array.length), s)

end

/-! ## One merge -/

/-- `out` is `output` with `l` from `k` on. -/
def Placed (output out l : List α) (k : Nat) : Prop := out = output.take k ++ l ++ output.drop (k + l.length)

theorem Placed.nil (output : List α) (k : Nat) : Placed output output [] k := by
  rw [Placed, List.append_nil, List.length_nil, Nat.add_zero, List.take_append_drop]

theorem Placed.cons {output out l : List α} {k : Nat} {a : α} (hk : k < output.length)
    (h : Placed (output.set k a) out l (k + 1)) : Placed output out (a :: l) k := by
  have htake : (output.set k a).take (k + 1) = output.take k ++ [a] := by
    rw [List.take_set, List.take_succ_eq_append_getElem hk, List.set_append_right _ _ (by simp)]
    simp [Nat.min_eq_left (Nat.le_of_lt hk)]
  rw [Placed, h, htake, List.drop_set_of_lt (by omega), List.length_cons, List.append_assoc, List.append_assoc,
    List.append_assoc, List.singleton_append, List.cons_append, Nat.add_assoc, Nat.add_comm 1]

/-- The elements from `i` up to `j`. -/
def slice (source : List α) (i j : Nat) : List α := (source.take j).drop i

theorem slice_cons [Inhabited α] {source : List α} {i j : Nat} (hi : i < j) (hj : j ≤ source.length) :
    slice source i j = source.getD i default :: slice source (i + 1) j := by
  have hlen : i < (source.take j).length := by
    rw [List.length_take]
    omega
  have hget : source.getD i default = source[i] := by
    rw [List.getD_eq_getElem?_getD, List.getElem?_eq_getElem, Option.getD_some]
  rw [slice, List.drop_eq_getElem_cons hlen, slice, List.getElem_take, hget]

theorem slice_nil {source : List α} {i j : Nat} (h : j ≤ i) : slice source i j = [] := by
  refine List.drop_eq_nil_of_le ?_
  rw [List.length_take]
  omega

section

variable {sortCb : SortCompareFn σ α} {source : List α}

/-- No comparison fails, and the sign of the result is that of a weak order. -/
structure Consistent (sortCb : SortCompareFn σ α) (le : α → α → Bool) : Prop where
  total : ∀ a b, le a b = true ∨ le b a = true
  trans : ∀ a b c, le a b = true → le b c = true → le a c = true
  compare : ∀ a b s, ∃ x, (sortCb a b s).1 = some x ∧ notPositive x = le a b

/-- What a merge of two lists gives. -/
def Merges (sortCb : SortCompareFn σ α) (xs ys l : List α) : Prop :=
  l.Perm (xs ++ ys) ∧ ∀ le, Consistent sortCb le → l = List.merge xs ys le

theorem Merges.left {x : α} {xs ys l : List α}
    (hle : ∀ y ys', ys = y :: ys' → ∀ le, Consistent sortCb le → le x y = true) (h : Merges sortCb xs ys l) :
    Merges sortCb (x :: xs) ys (x :: l) := by
  refine ⟨h.1.cons x, ?_⟩
  intro le hcons
  rw [h.2 le hcons]
  cases ys with
  | nil => rw [List.merge_right, List.merge_right]
  | cons y ys => rw [List.cons_merge_cons_pos le _ _ (hle y ys rfl le hcons)]

theorem Merges.right {y : α} {xs ys l : List α}
    (hle : ∀ x xs', xs = x :: xs' → ∀ le, Consistent sortCb le → ¬ le x y = true) (h : Merges sortCb xs ys l) :
    Merges sortCb xs (y :: ys) (y :: l) := by
  refine ⟨(h.1.cons y).trans List.perm_middle.symm, ?_⟩
  intro le hcons
  rw [h.2 le hcons]
  cases xs with
  | nil => rw [List.nil_merge, List.nil_merge]
  | cons x xs => rw [List.cons_merge_cons_neg le _ _ (hle x xs rfl le hcons)]

/-- What is known of the result of some rounds. -/
def RoundsSpec (sortCb : SortCompareFn σ α) (output : List α) (k : Nat) (xs ys : List α)
    (r : (Bool × List α) × σ) : Prop :=
  r.1.2.length = output.length ∧ ((∃ le, Consistent sortCb le) → r.1.1 = true) ∧
    (r.1.1 = true → ∃ l, Placed output r.1.2 l k ∧ Merges sortCb xs ys l)

/-- A round writes one element. -/
theorem RoundsSpec.step {output : List α} {k : Nat} {a : α} {xs ys xs' ys' : List α} {r : (Bool × List α) × σ}
    (hk : k < output.length) (hmerge : ∀ l, Merges sortCb xs ys l → Merges sortCb xs' ys' (a :: l))
    (h : RoundsSpec sortCb (output.set k a) (k + 1) xs ys r) : RoundsSpec sortCb output k xs' ys' r := by
  obtain ⟨hlen, hok, hplaced⟩ := h
  refine ⟨by rw [hlen, List.length_set], hok, ?_⟩
  intro hr
  obtain ⟨l, hl, hm⟩ := hplaced hr
  exact ⟨a :: l, hl.cons hk, hmerge l hm⟩

variable [Inhabited α]

/-- One round per element that is left in one of the two runs. -/
theorem bottomUpLoop_spec {rightIdx endIdx : Nat} (hend : endIdx ≤ source.length) (rounds k i j : Nat) (output : List α) (s : σ) (hi : i ≤ rightIdx) (hj : rightIdx ≤ j ∧ j ≤ endIdx)
    (hrounds : rounds = (rightIdx - i) + (endIdx - j)) (hk : k + rounds ≤ output.length) :
    RoundsSpec sortCb output k (slice source i rightIdx) (slice source j endIdx)
      (bottomUpLoop sortCb source rightIdx endIdx rounds k i j output s) := by
  induction rounds generalizing k i j output s with
  | zero =>
    rw [slice_nil (show rightIdx ≤ i by omega), slice_nil (show endIdx ≤ j by omega)]
    exact ⟨rfl, fun _ => rfl, fun _ => ⟨[], Placed.nil output k, List.Perm.refl _, fun le _ => (List.nil_merge []).symm⟩⟩
  | succ rounds ih =>
    rw [bottomUpLoop]
    -- the two ways in which a round goes on
    have left : ∀ s₁, i < rightIdx → (∀ le, j < endIdx → Consistent sortCb le →
          le (source.getD i default) (source.getD j default) = true) →
        RoundsSpec sortCb output k (slice source i rightIdx) (slice source j endIdx)
          (bottomUpLoop sortCb source rightIdx endIdx rounds (k + 1) (i + 1) j
            (output.set k (source.getD i default)) s₁) := by
      intro s₁ hlt hle
      refine RoundsSpec.step (by omega) ?_
        (ih (k + 1) (i + 1) j _ s₁ (by omega) hj (by omega) (by rw [List.length_set]; omega))
      intro l hl
      rw [slice_cons hlt (by omega)]
      refine hl.left ?_
      intro y ys hys le hcons
      cases Nat.lt_or_ge j endIdx with
      | inl hjlt =>
        rw [slice_cons hjlt hend] at hys
        rw [← (List.cons.inj hys).1]
        exact hle le hjlt hcons
      | inr hjge =>
        rw [slice_nil hjge] at hys
        cases hys
    have right : ∀ s₁, j < endIdx → (∀ le, i < rightIdx → Consistent sortCb le →
          ¬ le (source.getD i default) (source.getD j default) = true) →
        RoundsSpec sortCb output k (slice source i rightIdx) (slice source j endIdx)
          (bottomUpLoop sortCb source rightIdx endIdx rounds (k + 1) i (j + 1)
            (output.set k (source.getD j default)) s₁) := by
      intro s₁ hlt hle
      refine RoundsSpec.step (by omega) ?_
        (ih (k + 1) i (j + 1) _ s₁ hi (by omega) (by omega) (by rw [List.length_set]; omega))
      intro l hl
      rw [slice_cons hlt hend]
      refine hl.right ?_
      intro x xs hxs le hcons
      cases Nat.lt_or_ge i rightIdx with
      | inl hilt =>
        rw [slice_cons hilt (by omega)] at hxs
        rw [← (List.cons.inj hxs).1]
        exact hle le hilt hcons
      | inr hige =>
        rw [slice_nil hige] at hxs
        cases hxs
    by_cases hboth : i < rightIdx ∧ j < endIdx
    · rw [if_pos hboth]
      cases hres : sortCb (source.getD i default) (source.getD j default) s with
      | mk compareValue s₁ =>
        have hsign : ∀ le, Consistent sortCb le →
            ∃ x, compareValue = some x ∧ notPositive x = le (source.getD i default) (source.getD j default) := by
          intro le hcons
          have hx := hcons.compare (source.getD i default) (source.getD j default) s
          rw [hres] at hx
          exact hx
        cases compareValue with
        | none =>
          refine ⟨rfl, ?_, fun h => absurd h Bool.false_ne_true⟩
          intro hex
          obtain ⟨le, hcons⟩ := hex
          obtain ⟨x, hx, _⟩ := hsign le hcons
          cases hx
        | some x =>
          dsimp only
          by_cases hle : notPositive x = true
          · rw [if_pos ⟨hboth.1, hle⟩]
            refine left s₁ hboth.1 ?_
            intro le _ hcons
            obtain ⟨x', hx', hle'⟩ := hsign le hcons
            rw [← hle', ← Option.some.inj hx', hle]
          · rw [if_neg fun h => hle h.2]
            refine right s₁ hboth.2 ?_
            intro le _ hcons
            obtain ⟨x', hx', hle'⟩ := hsign le hcons
            rw [← hle', ← Option.some.inj hx']
            exact hle
    · rw [if_neg hboth]
      dsimp only
      by_cases hlt : i < rightIdx
      · rw [if_pos ⟨hlt, rfl⟩]
        exact left s hlt fun le hjlt _ => absurd ⟨hlt, hjlt⟩ hboth
      · rw [if_neg fun h => hlt h.1]
        exact right s (by omega) fun le hilt _ => absurd hilt hlt

theorem bottomUp_spec {leftIdx rightIdx endIdx : Nat} (hleft : leftIdx ≤ rightIdx) (hright : rightIdx ≤ endIdx)
    (hend : endIdx ≤ source.length) (output : List α) (s : σ) (hout : output.length = source.length) :
    RoundsSpec sortCb output leftIdx (slice source leftIdx rightIdx) (slice source rightIdx endIdx)
      (bottomUp sortCb source leftIdx rightIdx endIdx output s) := by
  refine bottomUpLoop_spec hend (endIdx - leftIdx) leftIdx leftIdx rightIdx output s hleft ⟨Nat.le_refl _, hright⟩ ?_ ?_
  · omega
  · omega

/-! ## One pass -/

/-- What a pass makes of the rest of the array. -/
def PassOf (sortCb : SortCompareFn σ α) (w : Nat) (rest l : List α) : Prop :=
  l.Perm rest ∧ ∀ le, Consistent sortCb le → Runs le w rest → Runs le (2 * w) l ∧ StableTo le l rest

omit [Inhabited α] in
theorem PassOf.nil (w : Nat) : PassOf sortCb w [] [] := ⟨List.Perm.refl _, fun _ _ _ => ⟨Runs.nil, StableTo.refl _⟩⟩

omit [Inhabited α] in
/-- Two runs that were merged, before the rest. -/
theorem PassOf.append {w : Nat} {rest m t : List α} (hm : Merges sortCb (rest.take w) ((rest.drop w).take w) m)
    (ht : PassOf sortCb w ((rest.drop w).drop w) t) : PassOf sortCb w rest (m ++ t) := by
  have hrest : (rest.take w ++ (rest.drop w).take w) ++ (rest.drop w).drop w = rest := by
    rw [List.append_assoc, List.take_append_drop, List.take_append_drop]
  have hlen := hm.1.length_eq
  rw [List.length_append, List.length_take, List.length_take, List.length_drop] at hlen
  constructor
  · rw [← hrest]
    exact hm.1.append ht.1
  · intro le hcons hruns
    have htotal : ∀ a b, (le a b || le b a) = true := fun a b => Bool.or_eq_true_iff.mpr (hcons.total a b)
    have hxs := hruns.first
    have hys := hruns.rest.first
    obtain ⟨htruns, htstable⟩ := ht.2 le hcons hruns.rest.rest
    have hsorted := List.pairwise_merge hcons.trans htotal _ _ hxs hys
    have hstable := stableTo_merge hcons.trans hxs hys
    rw [← hm.2 le hcons] at hsorted hstable
    constructor
    · refine htruns.append hsorted (by omega) ?_
      intro hlt
      have hnil : (rest.drop w).drop w = [] := by
        refine List.drop_eq_nil_of_le ?_
        rw [List.length_drop]
        omega
      rw [hnil] at ht
      exact ht.1.eq_nil
    · have hall := hstable.append htstable
      rw [hrest] at hall
      exact hall

/-- What is known of the result of the pairs from `i` on. -/
def PassSpec (sortCb : SortCompareFn σ α) (w i : Nat) (source dest : List α) (r : (Bool × List α) × σ) : Prop :=
  r.1.2.length = dest.length ∧ ((∃ le, Consistent sortCb le) → r.1.1 = true) ∧
    (r.1.1 = true → ∃ l, r.1.2 = dest.take i ++ l ∧ PassOf sortCb w (source.drop i) l)

omit [Inhabited α] in
theorem slice_eq_take {i w r : Nat} (hr : r = min (i + w) source.length) (hi : i ≤ source.length) :
    slice source i r = (source.drop i).take w := by
  rw [slice, List.drop_take, List.take_eq_take_min (i := w), List.length_drop]
  congr 1
  omega

theorem passLoop_spec {w : Nat} (hlen : source.length < 2 ^ 30) (hw : 0 < w ∧ w < source.length) (fuel i : Nat)
    (dest : List α) (s : σ) (hfuel : source.length - i < fuel) (hdest : dest.length = source.length) :
    ∃ r, passLoop sortCb source source.length w fuel i dest s = some r ∧ PassSpec sortCb w i source dest r := by
  induction fuel generalizing i dest s with
  | zero => exact absurd hfuel (Nat.not_lt_zero _)
  | succ fuel ih =>
    rw [passLoop]
    by_cases hi : i < source.length
    · rw [if_pos hi, Nat.mod_eq_of_lt (show i + w < 2 ^ 32 by omega), Nat.mod_eq_of_lt (show i + 2 * w < 2 ^ 32 by omega)]
      dsimp only
      generalize hr : (if source.length < i + w then source.length else i + w) = r
      generalize he : (if source.length < i + 2 * w then source.length else i + 2 * w) = e
      have hr' : r = min (i + w) source.length := by
        rw [← hr]
        split <;> omega
      have he' : e = min (i + 2 * w) source.length := by
        rw [← he]
        split <;> omega
      have hxs : slice source i r = (source.drop i).take w := slice_eq_take hr' (Nat.le_of_lt hi)
      have hys : slice source r e = ((source.drop i).drop w).take w := by
        cases Nat.le_total (i + w) source.length with
        | inl hle =>
          have hri : r = i + w := by omega
          rw [List.drop_drop, ← hri]
          exact slice_eq_take (by omega) (by omega)
        | inr hge =>
          rw [slice_nil (by omega), List.drop_eq_nil_of_le (by rw [List.length_drop]; omega), List.take_nil]
      have hspec : RoundsSpec sortCb dest i (slice source i r) (slice source r e)
          (bottomUp sortCb source i r e dest s) :=
        bottomUp_spec (by omega) (by omega) (by omega) dest s hdest
      rw [hxs, hys] at hspec
      generalize bottomUp sortCb source i r e dest s = res at hspec
      obtain ⟨⟨ok, mid⟩, s₁⟩ := res
      obtain ⟨hmidlen, hok, hplaced⟩ := hspec
      cases ok with
      | false => exact ⟨_, rfl, hmidlen, hok, fun h => absurd h Bool.false_ne_true⟩
      | true =>
        obtain ⟨m, hm, hmerges⟩ := hplaced rfl
        have hmidEq : mid = dest.take i ++ m ++ dest.drop (i + m.length) := hm
        have hmid : mid.length = source.length := hmidlen.trans hdest
        obtain ⟨res, hres, hreslen, hresok, hrest⟩ := ih (i + 2 * w) mid s₁ (by omega) hmid
        refine ⟨res, hres, hreslen.trans hmidlen, hresok, ?_⟩
        intro h
        obtain ⟨t, ht, hpass⟩ := hrest h
        have hmlen := hmerges.1.length_eq
        simp only [List.length_append, List.length_take, List.length_drop] at hmlen
        have htake : mid.take (i + 2 * w) = dest.take i ++ m := by
          rw [hmidEq]
          cases Nat.le_total (i + 2 * w) source.length with
          | inl hle =>
            refine List.take_left' ?_
            rw [List.length_append, List.length_take]
            omega
          | inr hge =>
            rw [List.drop_eq_nil_of_le (by omega), List.append_nil, List.take_of_length_le]
            rw [List.length_append, List.length_take]
            omega
        refine ⟨m ++ t, ?_, ?_⟩
        · rw [ht, htake, List.append_assoc]
        · refine PassOf.append hmerges ?_
          rw [List.drop_drop, List.drop_drop, show i + (w + w) = i + 2 * w by omega]
          exact hpass
    · rw [if_neg hi]
      refine ⟨_, rfl, rfl, fun _ => rfl, fun _ => ⟨[], ?_, ?_⟩⟩
      · rw [List.append_nil, List.take_of_length_le (by omega)]
      · rw [List.drop_eq_nil_of_le (by omega)]
        exact PassOf.nil w

/-! ## The sort -/

/-- What the array holds before the pass for width `w`. -/
structure SortedBy (sortCb : SortCompareFn σ α) (w : Nat) (original array : List α) : Prop where
  perm : array.Perm original
  runs : ∀ le, Consistent sortCb le → Runs le w array ∧ StableTo le array original

omit [Inhabited α] in
theorem SortedBy.pass {w : Nat} {original array l : List α} (h : SortedBy sortCb w original array)
    (hl : PassOf sortCb w array l) : SortedBy sortCb (2 * w) original l where
  perm := hl.1.trans h.perm
  runs := by
    intro le hcons
    obtain ⟨hruns, hstable⟩ := h.runs le hcons
    obtain ⟨hruns', hstable'⟩ := hl.2 le hcons hruns
    exact ⟨hruns', hstable'.trans hstable⟩

theorem widthLoop_spec {original : List α} (hlen : original.length < 2 ^ 30) (fuel w : Nat) (buffers : Buffers α) (s : σ)
    (hfuel : 0 < fuel ∧ original.length < w + fuel) (hw : 0 < w) (hdest : buffers.dest.length = original.length)
    (h : SortedBy sortCb w original buffers.array) :
    ∃ ok buffers' s', widthLoop sortCb original.length fuel w buffers s = some ((ok, buffers'), s') ∧
      buffers'.dest.length = original.length ∧ ((∃ le, Consistent sortCb le) → ok = true) ∧
      buffers'.array.Perm original ∧ (ok = true → ∃ w', original.length ≤ w' ∧ SortedBy sortCb w' original buffers'.array) := by
  induction fuel generalizing w buffers s with
  | zero => exact absurd hfuel.1 (Nat.lt_irrefl 0)
  | succ fuel ih =>
    rw [widthLoop]
    have hsource := h.perm.length_eq
    by_cases hlt : w < original.length
    · rw [if_pos hlt, ← hsource]
      have hpass := @passLoop_spec _ _ sortCb buffers.array _ w (by rw [hsource]; exact hlen) ⟨hw, by rw [hsource]; exact hlt⟩
        (buffers.array.length + 1) 0 buffers.dest s (by omega) (by rw [hsource]; exact hdest)
      obtain ⟨⟨⟨ok, dest⟩, s₁⟩, hres, hdestlen, hok, hplaced⟩ := hpass
      rw [hres, Nat.mod_eq_of_lt (show 2 * w < 2 ^ 32 by omega)]
      cases ok with
      | false =>
        exact ⟨false, _, s₁, rfl, (hdestlen.trans hdest).trans hsource.symm, hok, h.perm, fun hfalse => absurd hfalse Bool.false_ne_true⟩
      | true =>
        obtain ⟨l, hl, hpassOf⟩ := hplaced rfl
        rw [List.drop_zero] at hpassOf
        have hdestEq : dest = l := hl
        rw [hsource]
        refine ih (2 * w) ⟨dest, buffers.array, !buffers.arrayIsBase⟩ s₁ ⟨by omega, by omega⟩ (by omega) hsource ?_
        rw [hdestEq]
        exact h.pass hpassOf
    · rw [if_neg hlt]
      exact ⟨true, buffers, s, rfl, hdest, fun _ => rfl, h.perm, fun _ => ⟨w, Nat.not_lt.mp hlt, h⟩⟩

omit [Inhabited α] in
/-- In the end the array of the caller holds what is in `array_p`. -/
theorem Buffers.result_eq (buffers : Buffers α) {length : Nat} (harray : buffers.array.length = length)
    (hdest : buffers.dest.length = length) : buffers.result length = buffers.array := by
  rw [Buffers.result]
  split
  · rfl
  · rw [List.take_of_length_le (Nat.le_of_eq harray), List.drop_eq_nil_of_le (Nat.le_of_eq hdest), List.append_nil]

/-- What is known of the end of a sort. It returns when the temporary array can be allocated; the array of the caller
is then a permutation of what it was, and sorted stably when the comparisons are consistent. -/
def Sorts (sortCb : SortCompareFn σ α) (available : BitVec 32) (array : List α) :
    Except Stop ((Bool × List α) × σ) → Prop
  | .error .outOfMemory => available.toNat < array.length * 4
  | .error .endless => False
  | .ok ((ok, out), _) =>
    out.Perm array ∧ ∀ le, Consistent sortCb le → ok = true ∧ out.Pairwise (le · ·) ∧ StableTo le out array

theorem merge_sort_stable (sortCb : SortCompareFn σ α) (available : BitVec 32) (array : List α)
    (local_ : Fin array.length → α) (s : σ) :
    Sorts sortCb available array (ecmaBuiltinHelperArrayMergeSortHelper sortCb available array local_ s) := by
  rw [ecmaBuiltinHelperArrayMergeSortHelper]
  by_cases hmemory : available.toNat < array.length * 4
  · rw [if_pos hmemory]
    exact hmemory
  · rw [if_neg hmemory]
    have hsize := available.isLt
    have hstart : SortedBy sortCb 1 array array := ⟨List.Perm.refl _, fun le _ => ⟨runs_one array, StableTo.refl array⟩⟩
    have hlocal : (List.ofFn local_).length = array.length := List.length_ofFn
    have hspec := widthLoop_spec (show array.length < 2 ^ 30 by omega) (array.length + 1) 1
      ⟨array, List.ofFn local_, true⟩ s ⟨Nat.succ_pos _, by omega⟩ Nat.one_pos hlocal hstart
    obtain ⟨ok, buffers, s', hres, hdest, hok, hperm, hsorted⟩ := hspec
    rw [hres]
    dsimp only
    rw [buffers.result_eq hperm.length_eq hdest]
    refine ⟨hperm, ?_⟩
    intro le hcons
    have htrue := hok ⟨le, hcons⟩
    obtain ⟨w, hw, hby⟩ := hsorted htrue
    obtain ⟨hruns, hstable⟩ := hby.runs le hcons
    exact ⟨htrue, hruns.sorted (by rw [hperm.length_eq]; exact hw), hstable⟩

end

end MergeSort
end JJS
