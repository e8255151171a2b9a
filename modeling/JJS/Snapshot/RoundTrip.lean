import JJS.Snapshot.Rewrite

/-!
# JJS.Snapshot.RoundTrip

A tree of functions that is stored in a snapshot is loaded as it was, except for long strings and long regular
expressions. A snapshot of a tree is generated when every literal that is looked for is in the literal pool.
-/

namespace JJS
namespace Snapshot

open Traverse

/-! ## Loading what is stored -/

/-- A regular expression with the length that two bytes can hold. -/
def Compiled.cut : Compiled → Compiled
  | .regexp flags source => .regexp flags (source.take (source.length % 2 ^ 16))
  | .function code => .function code

def cutHeap (heap : CodeHeap) : CodeHeap := fun p => (heap p).map Compiled.cut

def narrowContents (contents : Contents) : Contents := fun w => (contents w).map Literal.narrow

/-- In both modes the loaded function has the parts of the function in the snapshot. -/
theorem copyCode_spec (options : LoadOptions) {code : FunctionCode} (h : code.Regular) :
    (copyCode options code).literals = code.words.take code.literalCount ∧
      (copyCode options code).byteCode = code.behind ∧
      (copyCode options code).tail.drop ((copyCode options code).tail.length - code.valueCount) = code.values := by
  have hvalues : ∀ n, n ≤ code.words.length - code.valueCount →
      (code.words.drop n).drop ((code.words.drop n).length - code.valueCount) = code.values := by
    intro n hn
    rw [FunctionCode.values, List.drop_drop, List.length_drop]
    congr 1
    have := h.2
    omega
  unfold copyCode
  split
  · refine ⟨rfl, rfl, hvalues _ ?_⟩
    have := h.2
    omega
  · refine ⟨rfl, rfl, hvalues _ ?_⟩
    omega

section

variable {heap : CodeHeap} {contents : Contents} {table : List UInt8} {s : SnapshotFile}

theorem loadCompiledCode_stored {R V : Nat → Nat → Prop} (hR : ∀ w v, R w v → loadValue table v = valueOf contents w)
    (hV : ∀ w v, V w v → loadValue table v = valueOf contents w) (options : LoadOptions) {depth p offset : Nat}
    (h : Stored heap R V s.blocks s.codeStart depth p offset) :
    loadCompiledCode s table options depth offset = treeOf (cutHeap heap) contents depth p := by
  induction depth generalizing p offset with
  | zero => exact h.elim
  | succ depth ih =>
    unfold Stored at h
    unfold loadCompiledCode treeOf cutHeap
    cases hc : heap p with
    | none => rw [hc] at h; exact h.elim
    | some c =>
      rw [hc] at h
      cases c with
      | regexp flags source =>
        obtain ⟨size, hat⟩ := h
        rw [hat]
        exact if_pos (Nat.mod_le _ _)
      | function code =>
        obtain ⟨code', hat, htrans, hsubs⟩ := h
        have hp := htrans.regular.parts
        obtain ⟨hliterals, hbyteCode, hvalues⟩ := copyCode_spec options htrans.regular
        rw [hat]
        dsimp only [Option.map_some, Compiled.cut]
        rw [hliterals, hbyteCode, hvalues, hp.literals_eq, List.take_left' hp.consts_length,
          List.drop_left' hp.consts_length, htrans.flags, htrans.shape.args]
        have hconsts : code.consts.mapM (valueOf contents) = code'.consts.mapM (loadValue table) :=
          mapM_congr₂ (htrans.consts.imp fun w v hwv => (hR w v hwv).symm)
        have hnames : code.values.mapM (valueOf contents) = code'.values.mapM (loadValue table) :=
          mapM_congr₂ (htrans.values.imp fun w v hwv => (hV w v hwv).symm)
        have hnodes : (code.subWords.mapM fun w =>
              if w = p then some none else (treeOf (cutHeap heap) contents depth w).map some) =
            code'.subWords.mapM fun w =>
              if w = 0 then some none else (loadCompiledCode s table options depth (offset + w)).map some := by
          refine mapM_congr₂ (hsubs.imp ?_)
          intro w v hsub
          by_cases hw : w = p
          · rw [if_pos hw] at hsub
            rw [if_pos hw, if_pos hsub]
          · rw [if_neg hw] at hsub
            obtain ⟨hpos, hstored⟩ := hsub
            rw [if_neg hw, if_neg (Nat.ne_of_gt hpos), ih hstored]
        have hbytes : code'.behind.take (code'.behind.length - code'.valueCount) = code.byteCode := htrans.byteCode
        rw [hbytes, ← hconsts, ← hnames]
        exact congrArg _ (funext fun consts => by rw [← hnodes]; rfl)

/-- What is said of the words of every function that is stored. -/
theorem Stored.allNodes {R V : Nat → Nat → Prop} {blocks : List Block} {base depth p offset : Nat}
    (h : Stored heap R V blocks base depth p offset) :
    AllNodes heap (fun c => match c with
      | .regexp _ _ => True
      | .function code => ∀ w ∈ code.consts, ∃ v, R w v) depth p := by
  induction depth generalizing p offset with
  | zero => exact h
  | succ depth ih =>
    unfold Stored at h
    cases hc : heap p with
    | none => rw [hc] at h; exact h.elim
    | some c =>
      rw [hc] at h
      cases c with
      | regexp flags source =>
        refine ⟨_, hc, trivial, ?_⟩
        intro w hw
        cases hw
      | function code =>
        obtain ⟨code', -, htrans, hsubs⟩ := h
        refine ⟨_, hc, ?_, ?_⟩
        · intro w hw
          obtain ⟨v, -, hv⟩ := forall₂_exists_right htrans.consts hw
          exact ⟨v, hv⟩
        · intro w hw hne
          obtain ⟨v, -, hv⟩ := forall₂_exists_right hsubs hw
          rw [if_neg hne] at hv
          exact ih hv.2

/-! ## Trees with short literals -/

theorem isSaved_eq (w : Nat) : isSaved w = (isTableLiteral w && w != bigintZero) := by
  unfold isSaved isTableLiteral
  by_cases hw : w = bigintZero
  · rw [hw]
    rfl
  · have hne : (w != bigintZero) = true := bne_iff_ne.mpr hw
    rw [hne, Bool.and_true, Bool.and_true]

/-- The literal of a word fits into the table as it is. -/
def ShortWord (contents : Contents) (w : Nat) : Prop :=
  isSaved w = true → ∀ l, contents w = some l → l.Short

theorem valueOf_narrow_iff {w : Nat} : valueOf (narrowContents contents) w = valueOf contents w ↔ ShortWord contents w := by
  unfold valueOf narrowContents ShortWord
  rw [isSaved_eq]
  by_cases hw : (isTableLiteral w && w != bigintZero) = true
  · rw [if_pos hw, if_pos hw]
    cases hl : contents w with
    | none => simp
    | some l => simp [hw, narrow_eq_iff]
  · rw [if_neg hw, if_neg hw]
    exact iff_of_true rfl fun h => absurd h hw

/-- Every literal and every regular expression is as short as its length in a snapshot. -/
def Compiled.Short (contents : Contents) : Compiled → Prop
  | .regexp _ source => source.length < 2 ^ 16
  | .function code => (∀ w ∈ code.consts, ShortWord contents w) ∧ ∀ w ∈ code.values, ShortWord contents w

def Compiled.Readable (contents : Contents) : Compiled → Prop
  | .regexp _ _ => True
  | .function code =>
    (∀ w ∈ code.consts, ∃ v, valueOf contents w = some v) ∧ ∀ w ∈ code.values, ∃ v, valueOf contents w = some v

theorem take_mod_eq_iff {source : List UInt8} :
    source.take (source.length % 2 ^ 16) = source ↔ source.length < 2 ^ 16 := by
  have h := narrow_eq_iff (.string source)
  rw [Literal.narrow, Literal.string.injEq] at h
  exact h

theorem valueOf_narrow_some {w : Nat} (h : ∃ v, valueOf contents w = some v) :
    ∃ v, valueOf (narrowContents contents) w = some v := by
  obtain ⟨v, hv⟩ := h
  unfold valueOf at hv ⊢
  by_cases hw : (isTableLiteral w && w != bigintZero) = true
  · rw [if_pos hw] at hv ⊢
    obtain ⟨l, hl, -⟩ := Option.map_eq_some_iff.mp hv
    exact ⟨.literal l.narrow, by rw [narrowContents, hl]; rfl⟩
  · rw [if_neg hw]
    exact ⟨_, rfl⟩

theorem treeOf_some {depth p : Nat} (h : AllNodes heap (Compiled.Readable contents) depth p) :
    ∃ t, treeOf heap contents depth p = some t := by
  induction depth generalizing p with
  | zero => exact h.elim
  | succ depth ih =>
    obtain ⟨c, hc, hn, hsubs⟩ := h
    unfold treeOf
    rw [hc]
    cases c with
    | regexp flags source => exact ⟨_, rfl⟩
    | function code =>
      obtain ⟨consts, hconsts⟩ := mapM_some_of_forall hn.1
      obtain ⟨names, hnames⟩ := mapM_some_of_forall hn.2
      have hnodes : ∀ w ∈ code.subWords, ∃ t,
          (if w = p then some none else (treeOf heap contents depth w).map some) = some t := by
        intro w hw
        by_cases hwp : w = p
        · exact ⟨none, if_pos hwp⟩
        · obtain ⟨t, ht⟩ := ih (hsubs w hw hwp)
          exact ⟨some t, by rw [if_neg hwp, ht]; rfl⟩
      obtain ⟨subs, hs⟩ := mapM_some_of_forall hnodes
      dsimp only
      rw [hconsts, hs, hnames]
      exact ⟨_, rfl⟩

theorem treeOf_narrow_some {depth p : Nat} (h : AllNodes heap (Compiled.Readable contents) depth p) :
    ∃ t, treeOf (cutHeap heap) (narrowContents contents) depth p = some t := by
  refine treeOf_some ?_
  induction depth generalizing p with
  | zero => exact h
  | succ depth ih =>
    obtain ⟨c, hc, hn, hsubs⟩ := h
    refine ⟨c.cut, by rw [cutHeap, hc]; rfl, ?_, ?_⟩
    · cases c with
      | regexp flags source => trivial
      | function code =>
        exact ⟨fun w hw => valueOf_narrow_some (hn.1 w hw), fun w hw => valueOf_narrow_some (hn.2 w hw)⟩
    · intro w hw hne
      refine ih (hsubs w ?_ hne)
      cases c with
      | regexp flags source => cases hw
      | function code => exact hw

/-- The narrow tree is the tree just when everything in it is short. -/
theorem treeOf_narrow_iff {depth p : Nat} (h : AllNodes heap (Compiled.Readable contents) depth p) :
    treeOf (cutHeap heap) (narrowContents contents) depth p = treeOf heap contents depth p ↔
      AllNodes heap (Compiled.Short contents) depth p := by
  induction depth generalizing p with
  | zero => exact h.elim
  | succ depth ih =>
    obtain ⟨c, hc, hn, hsubs⟩ := h
    have hall : AllNodes heap (Compiled.Short contents) (depth + 1) p ↔
        c.Short contents ∧ ∀ w ∈ c.subWords, w ≠ p → AllNodes heap (Compiled.Short contents) depth w := by
      constructor
      · intro h
        obtain ⟨c', hc', hn', hsubs'⟩ := h
        rw [hc] at hc'
        cases hc'
        exact ⟨hn', hsubs'⟩
      · intro h
        exact ⟨c, hc, h.1, h.2⟩
    rw [hall]
    unfold treeOf
    rw [cutHeap, hc]
    cases c with
    | regexp flags source =>
      simp only [Option.map_some, Compiled.cut, Option.some.injEq, Tree.regexp.injEq, true_and, take_mod_eq_iff,
        Compiled.Short, Compiled.subWords, List.not_mem_nil, false_implies, implies_true, and_true]
    | function code =>
      dsimp only [Option.map_some, Compiled.cut]
      have hconsts := mapM_eq_mapM_iff (fun w hw => valueOf_narrow_some (hn.1 w hw)) hn.1
      have hnames := mapM_eq_mapM_iff (fun w hw => valueOf_narrow_some (hn.2 w hw)) hn.2
      have hsub : ∀ w ∈ code.subWords, ∃ t,
          (if w = p then some none else (treeOf heap contents depth w).map some) = some t := by
        intro w hw
        by_cases hwp : w = p
        · exact ⟨none, if_pos hwp⟩
        · obtain ⟨t, ht⟩ := treeOf_some (hsubs w hw hwp)
          exact ⟨some t, by rw [if_neg hwp, ht]; rfl⟩
      have hsub' : ∀ w ∈ code.subWords, ∃ t,
          (if w = p then some none else (treeOf (cutHeap heap) (narrowContents contents) depth w).map some) = some t := by
        intro w hw
        by_cases hwp : w = p
        · exact ⟨none, if_pos hwp⟩
        · obtain ⟨t, ht⟩ := treeOf_narrow_some (hsubs w hw hwp)
          exact ⟨some t, by rw [if_neg hwp, ht]; rfl⟩
      have hnodes := mapM_eq_mapM_iff hsub' hsub
      have hnodes' : (∀ w ∈ code.subWords,
            (if w = p then some none else (treeOf (cutHeap heap) (narrowContents contents) depth w).map some) =
            if w = p then some none else (treeOf heap contents depth w).map some) ↔
          ∀ w ∈ code.subWords, w ≠ p → AllNodes heap (Compiled.Short contents) depth w := by
        refine forall₂_congr ?_
        intro w hw
        by_cases hwp : w = p
        · simp [hwp]
        · rw [if_neg hwp, if_neg hwp, (Option.map_injective (Option.some_injective _)).eq_iff, ih (hsubs w hw hwp)]
          simp [hwp]
      obtain ⟨consts, h1⟩ := mapM_some_of_forall hn.1
      obtain ⟨names, h2⟩ := mapM_some_of_forall hn.2
      obtain ⟨subs, h3⟩ := mapM_some_of_forall hsub
      obtain ⟨consts', h1'⟩ := mapM_some_of_forall fun w hw => valueOf_narrow_some (hn.1 w hw)
      obtain ⟨names', h2'⟩ := mapM_some_of_forall fun w hw => valueOf_narrow_some (hn.2 w hw)
      obtain ⟨subs', h3'⟩ := mapM_some_of_forall hsub'
      rw [hnodes'] at hnodes
      simp only [valueOf_narrow_iff] at hconsts hnames
      rw [h1, h1', Option.some.injEq] at hconsts
      rw [h2, h2', Option.some.injEq] at hnames
      rw [h3, h3', Option.some.injEq] at hnodes
      rw [h1, h1', h2, h2', h3, h3']
      simp only [Option.bind_some, Option.some.injEq, Tree.function.injEq, true_and, hconsts, hnames, hnodes,
        Compiled.Short, Compiled.subWords]
      tauto

end

end Snapshot
end JJS
