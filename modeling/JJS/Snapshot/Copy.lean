import JJS.Lib.Outcome
import JJS.Snapshot.Layout

/-!
# JJS.Snapshot.Copy

What `snapshot_add_compiled_code` writes: the tree lies in the buffer, with its literals as they were. The blocks are
copies of the functions and regular expressions of the tree, one behind the other.
-/

namespace JJS
namespace Snapshot

open Outcome (bind_eq_ok)

/-- A constant is kept as it is, and it is no offset. -/
def Kept (w v : Nat) : Prop := w = v ∧ isSnapshotOffset w = false

/-- A block is the copy of a function or a regular expression. -/
def Copied : Compiled → Block → Prop
  | .regexp flags source, b =>
    b = .regexp ((source.length + 6 + 7) / 8 % 2 ^ 16) (source.length % 2 ^ 16) flags source
  | .function code, b => ∃ code', b = .function code' ∧ Translated Kept Eq code code'

/-- What is known after a part of the tree was copied. -/
structure Added (N : Compiled → Prop) (g g' : Globals) (blocks : List Block) : Prop where
  aligned : 8 ∣ g'.writeOffset
  writeOffset : g'.writeOffset = g.writeOffset + extents blocks
  copied : ∀ b ∈ blocks, ∃ c, N c ∧ Copied c b

theorem alignUp_add {n m : Nat} (h : 8 ∣ n) : alignUp (n + m) = n + alignUp m := by
  unfold alignUp
  omega

theorem dvd_alignUp (n : Nat) : 8 ∣ alignUp n := Nat.dvd_mul_left 8 _

theorem bind_eq_error {ε α β : Type} {x : Except ε α} {f : α → Except ε β} {e : ε} (h : x.bind f = .error e) :
    x = .error e ∨ ∃ a, x = .ok a ∧ f a = .error e := by
  cases x with
  | error e' =>
    cases h
    exact Or.inl rfl
  | ok a => exact Or.inr ⟨a, rfl, h⟩

section

variable {heap : CodeHeap} {N : Compiled → Prop} {contents : Contents} {bufferSize : Nat}

/-- Where the functions in a function lie, by their offsets from its start. -/
def SubsStored (heap : CodeHeap) (blocks : List Block) (base depth p start : Nat) (ws offsets : List Nat) : Prop :=
  List.Forall₂ (fun w v => if w = p then v = 0 else 0 < v ∧ Stored heap Kept Eq blocks base depth w (start + v)) ws offsets

theorem addSubs_spec {depth p start : Nat} {add : Nat → Globals → Except Failure (List Block × Globals)}
    {ws : List Nat} {g g' : Globals} {offsets : List Nat} {blocks : List Block}
    (hadd : ∀ w ∈ ws, w ≠ p → ∀ g g' blocks, 8 ∣ g.writeOffset → add w g = .ok (blocks, g') →
      Added N g g' blocks ∧ ∀ before behind base, base + extents before = g.writeOffset →
        Stored heap Kept Eq (before ++ blocks ++ behind) base depth w g.writeOffset)
    (halign : 8 ∣ g.writeOffset) (hstart : start < g.writeOffset)
    (h : addSubs add p start ws g = .ok (offsets, blocks, g')) :
    Added N g g' blocks ∧ ∀ before behind base, base + extents before = g.writeOffset →
      SubsStored heap (before ++ blocks ++ behind) base depth p start ws offsets := by
  induction ws generalizing g offsets blocks with
  | nil =>
    cases h
    exact ⟨⟨halign, rfl, by simp⟩, fun _ _ _ _ => List.Forall₂.nil⟩
  | cons w ws ih =>
    have hadd' := fun v (hv : v ∈ ws) => hadd v (List.mem_cons_of_mem w hv)
    unfold addSubs at h
    by_cases hw : w = p
    · rw [if_pos hw] at h
      obtain ⟨r, hr, h⟩ := bind_eq_ok h
      obtain ⟨offsets', blocks', g''⟩ := r
      cases h
      obtain ⟨h1, h2⟩ := ih hadd' halign hstart hr
      refine ⟨h1, ?_⟩
      intro before behind base hbase
      exact List.Forall₂.cons (by rw [if_pos hw]) (h2 before behind base hbase)
    · rw [if_neg hw] at h
      obtain ⟨r, hr, h⟩ := bind_eq_ok h
      obtain ⟨children, g1⟩ := r
      obtain ⟨r', hr', h⟩ := bind_eq_ok h
      obtain ⟨offsets', blocks', g2⟩ := r'
      cases h
      obtain ⟨hchild, hstored⟩ := hadd w List.mem_cons_self hw g g1 children halign hr
      have hlater : start < g1.writeOffset := by
        have := hchild.writeOffset
        omega
      obtain ⟨hrest, hsubs⟩ := ih hadd' hchild.aligned hlater hr'
      refine ⟨⟨hrest.aligned, ?_, ?_⟩, ?_⟩
      · rw [hrest.writeOffset, hchild.writeOffset, extents_append, Nat.add_assoc]
      · intro b hb
        cases List.mem_append.mp hb with
        | inl hin => exact hchild.copied b hin
        | inr hin => exact hrest.copied b hin
      · intro before behind base hbase
        refine List.Forall₂.cons ?_ ?_
        · rw [if_neg hw, Nat.add_sub_of_le (Nat.le_of_lt hstart)]
          refine ⟨Nat.sub_pos_of_lt hstart, ?_⟩
          have hthis := hstored before (blocks' ++ behind) base hbase
          rw [← List.append_assoc, List.append_assoc before] at hthis
          exact hthis
        · have hnext : base + extents (before ++ children) = g1.writeOffset := by
            rw [extents_append, hchild.writeOffset]
            omega
          have hthis := hsubs (before ++ children) behind base hnext
          rw [List.append_assoc before] at hthis
          exact hthis

/-- The copy of a function has offsets in the place of the functions in it. -/
theorem translated_copy {code : FunctionCode} {offsets : List Nat} (h : code.WellFormed contents)
    (hoffsets : offsets.length = code.subWords.length) :
    Translated Kept Eq code
      { code with flags := clearLineInfo code.flags, words := code.consts ++ (offsets ++ code.behind) } ∧
    FunctionCode.subWords
      { code with flags := clearLineInfo code.flags, words := code.consts ++ (offsets ++ code.behind) } = offsets ∧
    code.words.length = (code.consts ++ (offsets ++ code.behind)).length := by
  have hp := h.regular.parts
  have hshape : SameShape code
      { code with flags := clearLineInfo code.flags, words := code.consts ++ (offsets ++ code.behind) } :=
    ⟨rfl, rfl, clearLineInfo_testBit (by omega), clearLineInfo_testBit (by omega),
      functionType_clearLineInfo h.flags_lt⟩
  have hcopy := hshape.parts hp (by rw [← hp.behind_eq]) rfl hoffsets rfl
  have hlen : code.words.length = (code.consts ++ (offsets ++ code.behind)).length := by
    have hwords := congrArg List.length hp.words
    rw [← hp.behind_eq] at hwords
    simp only [List.length_append] at hwords ⊢
    omega
  refine ⟨⟨rfl, hshape, ?_, ?_, ?_, hcopy.byteCode_eq⟩, hcopy.subWords_eq, hlen⟩
  · rw [FunctionCode.Regular, hshape.constCount, hshape.literalCount, hshape.valueCount]
    obtain ⟨h1, h2⟩ := h.regular
    exact ⟨h1, by rw [← hlen]; exact h2⟩
  · rw [hcopy.consts_eq]
    exact List.forall₂_same.mpr fun w hw => ⟨rfl, (h.consts w hw).1⟩
  · rw [hcopy.values_eq]
    exact List.forall₂_same.mpr fun _ _ => rfl

theorem addCompiledCode_spec (hN : ∀ c, N c → c.WellFormed contents) {depth p : Nat} {g g' : Globals}
    {blocks : List Block} (htree : AllNodes heap N depth p) (halign : 8 ∣ g.writeOffset)
    (h : addCompiledCode heap bufferSize depth p g = .ok (blocks, g')) :
    Added N g g' blocks ∧ ∀ before behind base, base + extents before = g.writeOffset →
      Stored heap Kept Eq (before ++ blocks ++ behind) base depth p g.writeOffset := by
  induction depth generalizing p g g' blocks with
  | zero => exact htree.elim
  | succ depth ih =>
    obtain ⟨c, hc, hn, hsubs⟩ := htree
    have hwf := hN c hn
    unfold addCompiledCode at h
    by_cases hmax : g.writeOffset > maximumWriteOffset
    · rw [if_pos hmax] at h
      cases h
    · rw [if_neg hmax, hc] at h
      cases c with
      | regexp flags source =>
        dsimp only at h
        by_cases htagged : hasTaggedLiterals flags = true
        · rw [if_pos htagged] at h; cases h
        · rw [if_neg htagged] at h
          by_cases hsize : g.writeOffset + 6 > bufferSize
          · rw [if_pos hsize] at h; cases h
          · rw [if_neg hsize] at h
            by_cases hsize' : g.writeOffset + 6 + source.length > bufferSize
            · rw [if_pos hsize'] at h; cases h
            · rw [if_neg hsize'] at h
              cases h
              have hnext : alignUp (g.writeOffset + 6 + source.length) = g.writeOffset + alignUp (6 + source.length) := by
                rw [Nat.add_assoc, alignUp_add halign]
              refine ⟨⟨dvd_alignUp _, ?_, ?_⟩, ?_⟩
              · simp [hnext, Block.extent]
              · intro b hb
                rw [List.mem_singleton] at hb
                exact ⟨_, hn, hb⟩
              · intro before behind base hbase
                unfold Stored
                rw [hc, ← hbase, List.append_assoc]
                exact ⟨_, blockAt_append⟩
      | function code =>
        dsimp only at h
        by_cases htagged : hasTaggedLiterals code.flags = true
        · rw [if_pos htagged] at h; cases h
        · rw [if_neg htagged] at h
          by_cases hsize : g.writeOffset + code.size * 8 > bufferSize
          · rw [if_pos hsize] at h; cases h
          · rw [if_neg hsize] at h
            obtain ⟨r, hr, h⟩ := bind_eq_ok h
            obtain ⟨offsets, children, g1⟩ := r
            cases h
            have hpos : 0 < code.size * 8 := by
              have h16 := hwf.size_eq
              unfold FunctionCode.headerSize at h16
              split at h16 <;> omega
            have hadd : ∀ w ∈ code.subWords, w ≠ p → ∀ g g' blocks, 8 ∣ g.writeOffset →
                addCompiledCode heap bufferSize depth w g = .ok (blocks, g') →
                Added N g g' blocks ∧ ∀ before behind base, base + extents before = g.writeOffset →
                  Stored heap Kept Eq (before ++ blocks ++ behind) base depth w g.writeOffset := by
              intro w hw hne g g' blocks hg hok
              exact ih (hsubs w hw hne) hg hok
            obtain ⟨hchildren, hstored⟩ := addSubs_spec hadd (Nat.dvd_add halign (Nat.dvd_mul_left 8 _))
              (Nat.lt_add_of_pos_right hpos) hr
            have hoffsets : offsets.length = code.subWords.length :=
              (hstored [] [] _ (Nat.add_zero _)).length_eq.symm
            obtain ⟨htranslated, hsub, hlen⟩ := translated_copy hwf hoffsets
            have hextent : Block.extent (.function
                { code with flags := clearLineInfo code.flags, words := code.consts ++ (offsets ++ code.behind) }) =
                code.size * 8 := by
              rw [Block.extent, htranslated.shape.headerSize, ← hlen, hwf.size_eq]
            refine ⟨⟨hchildren.aligned, ?_, ?_⟩, ?_⟩
            · rw [hchildren.writeOffset, extents_cons, hextent, Nat.add_assoc]
            · intro b hb
              cases List.mem_cons.mp hb with
              | inl heq => exact ⟨_, hn, _, heq, htranslated⟩
              | inr hin => exact hchildren.copied b hin
            · intro before behind base hbase
              unfold Stored
              rw [hc]
              refine ⟨_, by rw [← hbase, List.append_assoc]; exact blockAt_append, htranslated, ?_⟩
              rw [hsub]
              have hnext := hstored (before ++ [.function
                { code with flags := clearLineInfo code.flags, words := code.consts ++ (offsets ++ code.behind) }])
                behind base (by rw [extents_append, extents_cons, extents_nil, hextent, Nat.add_zero, ← Nat.add_assoc, hbase])
              rw [List.append_assoc before, List.singleton_append] at hnext
              exact hnext

theorem addSubs_not_stuck {p start : Nat} {add : Nat → Globals → Except Failure (List Block × Globals)}
    {ws : List Nat} {g : Globals} (hadd : ∀ w ∈ ws, w ≠ p → ∀ g, add w g ≠ .error .stuck) :
    addSubs add p start ws g ≠ .error .stuck := by
  induction ws generalizing g with
  | nil => intro h; cases h
  | cons w ws ih =>
    have hrest := fun g => ih (g := g) fun v hv => hadd v (List.mem_cons_of_mem w hv)
    unfold addSubs
    by_cases hw : w = p
    · rw [if_pos hw]
      intro h
      cases bind_eq_error h with
      | inl hr => exact hrest g hr
      | inr hr =>
        obtain ⟨r, -, hr⟩ := hr
        cases hr
    · rw [if_neg hw]
      intro h
      cases bind_eq_error h with
      | inl hr => exact hadd w List.mem_cons_self hw g hr
      | inr hr =>
        obtain ⟨r, -, hr⟩ := hr
        cases bind_eq_error hr with
        | inl hr' => exact hrest r.2 hr'
        | inr hr' =>
          obtain ⟨r', -, hr'⟩ := hr'
          cases hr'

theorem addCompiledCode_not_stuck {depth p : Nat} {g : Globals} (htree : AllNodes heap N depth p) :
    addCompiledCode heap bufferSize depth p g ≠ .error .stuck := by
  induction depth generalizing p g with
  | zero => exact htree.elim
  | succ depth ih =>
    obtain ⟨c, hc, -, hsubs⟩ := htree
    unfold addCompiledCode
    by_cases hmax : g.writeOffset > maximumWriteOffset
    · rw [if_pos hmax]
      intro h
      cases h
    · rw [if_neg hmax, hc]
      cases c with
      | regexp flags source =>
        dsimp only
        by_cases htagged : hasTaggedLiterals flags = true
        · rw [if_pos htagged]; intro h; cases h
        · rw [if_neg htagged]
          by_cases hsize : g.writeOffset + 6 > bufferSize
          · rw [if_pos hsize]; intro h; cases h
          · rw [if_neg hsize]
            by_cases hsize' : g.writeOffset + 6 + source.length > bufferSize
            · rw [if_pos hsize']; intro h; cases h
            · rw [if_neg hsize']; intro h; cases h
      | function code =>
        dsimp only
        by_cases htagged : hasTaggedLiterals code.flags = true
        · rw [if_pos htagged]; intro h; cases h
        · rw [if_neg htagged]
          by_cases hsize : g.writeOffset + code.size * 8 > bufferSize
          · rw [if_pos hsize]; intro h; cases h
          · rw [if_neg hsize]
            intro h
            cases bind_eq_error h with
            | inl hr => exact addSubs_not_stuck (fun w hw hne g => ih (g := g) (hsubs w hw hne)) hr
            | inr hr =>
              obtain ⟨r, -, hr⟩ := hr
              cases hr

theorem addSubs_lt {n p start : Nat} {add : Nat → Globals → Except Failure (List Block × Globals)} {ws : List Nat}
    {g : Globals} {r : List Nat × List Block × Globals}
    (hadd : ∀ w g r, add w g = .ok r → r.2.writeOffset < n) (hg : g.writeOffset < n)
    (h : addSubs add p start ws g = .ok r) : r.2.2.writeOffset < n := by
  induction ws generalizing g r with
  | nil =>
    cases h
    exact hg
  | cons w ws ih =>
    unfold addSubs at h
    by_cases hw : w = p
    · rw [if_pos hw] at h
      obtain ⟨r', hr', h⟩ := bind_eq_ok h
      cases h
      exact @ih g r' hg hr'
    · rw [if_neg hw] at h
      obtain ⟨r', hr', h⟩ := bind_eq_ok h
      obtain ⟨r'', hr'', h⟩ := bind_eq_ok h
      cases h
      exact @ih r'.2 r'' (hadd w g r' hr') hr''

/-- The end of a function is in the buffer. The end of a regular expression is rounded up after the test. -/
theorem addCompiledCode_lt {depth p : Nat} {g : Globals} {r : List Block × Globals}
    (h : addCompiledCode heap bufferSize depth p g = .ok r) : r.2.writeOffset < bufferSize + 8 := by
  induction depth generalizing p g r with
  | zero => cases h
  | succ depth ih =>
    unfold addCompiledCode at h
    split at h
    · cases h
    split at h
    · cases h
    · split at h
      · cases h
      split at h
      · cases h
      split at h
      · cases h
      cases h
      simp only [alignUp]
      omega
    · split at h
      · cases h
      split at h
      · cases h
      obtain ⟨r', hr', h⟩ := bind_eq_ok h
      cases h
      refine addSubs_lt (fun w g r hr => ih hr) ?_ hr'
      dsimp only
      omega

end

end Snapshot
end JJS
