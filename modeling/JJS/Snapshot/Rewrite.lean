import JJS.Snapshot.Copy

/-!
# JJS.Snapshot.Rewrite

The two passes over the literals: `ecma_save_literals_add_compiled_code` collects those of a tree, and
`jjs_snapshot_set_offsets` replaces them in the copies. Replacing them moves no block.
-/

namespace JJS
namespace Snapshot

open Traverse

/-! ## The literals of a tree -/

/-- The words that the code reads as the literals of a function. -/
def Compiled.collected : Compiled → List Nat
  | .regexp _ _ => []
  | .function code =>
    (if hasMappedArguments code.flags then code.words.take code.args.argumentEnd else []) ++ (code.consts ++ code.values)

/-- The pool after the literals of a tree were added. -/
structure Collected (heap : CodeHeap) (N : Compiled → Prop) (depth p : Nat) (pool pool' : List Nat) : Prop where
  mono : ∀ w ∈ pool, w ∈ pool'
  nodes : AllNodes heap (fun c => ∀ w ∈ c.collected, isSaved w = true → w ∈ pool') depth p
  origin : ∀ w ∈ pool', w ∈ pool ∨ ∃ c, N c ∧ w ∈ c.collected ∧ isSaved w = true

section

variable {heap : CodeHeap} {N : Compiled → Prop}

theorem allNodes_regexp {M : Compiled → Prop} {depth p flags : Nat} {source : List UInt8}
    (hp : heap p = some (.regexp flags source)) (hM : M (.regexp flags source)) (h : AllNodes heap N depth p) :
    AllNodes heap M depth p := by
  cases depth with
  | zero => exact h.elim
  | succ depth =>
    refine ⟨_, hp, hM, ?_⟩
    intro w hw
    cases hw

theorem addSubLiterals_spec {add : Nat → List Nat → Option (List Nat)} {depth p : Nat} {code : FunctionCode}
    (hp : heap p = some (.function code)) {ws : List Nat}
    (htree : ∀ w ∈ ws, w ≠ p → AllNodes heap N depth w)
    (hadd : ∀ w ∈ ws, w ≠ p → (∃ code, heap w = some (.function code)) → ∀ pool, ∃ pool', add w pool = some pool' ∧
      Collected heap N depth w pool pool') (pool : List Nat) :
    ∃ pool', addSubLiterals add heap p ws pool = some pool' ∧ (∀ w ∈ pool, w ∈ pool') ∧
      (∀ w ∈ ws, w ≠ p → AllNodes heap (fun c => ∀ w ∈ c.collected, isSaved w = true → w ∈ pool') depth w) ∧
      ∀ w ∈ pool', w ∈ pool ∨ ∃ c, N c ∧ w ∈ c.collected ∧ isSaved w = true := by
  induction ws generalizing pool with
  | nil => exact ⟨pool, rfl, fun _ hw => hw, by simp, fun _ hw => Or.inl hw⟩
  | cons w ws ih =>
    have hrest := ih (fun v hv => htree v (List.mem_cons_of_mem w hv)) fun v hv => hadd v (List.mem_cons_of_mem w hv)
    by_cases hw : w = p
    · obtain ⟨pool', h1, h2, h3, h4⟩ := hrest pool
      refine ⟨pool', ?_, h2, ?_, h4⟩
      · rw [addSubLiterals, hw, hp]
        dsimp only
        rw [if_pos rfl]
        exact h1
      · intro v hv hne
        cases List.mem_cons.mp hv with
        | inl heq => exact absurd (heq.trans hw) hne
        | inr hin => exact h3 v hin hne
    · have hnode := htree w List.mem_cons_self hw
      cases hc : heap w with
      | none =>
        cases depth with
        | zero => exact hnode.elim
        | succ depth =>
          obtain ⟨c, hc', -⟩ := hnode
          rw [hc] at hc'
          cases hc'
      | some c =>
        cases c with
        | regexp flags source =>
          obtain ⟨pool', h1, h2, h3, h4⟩ := hrest pool
          refine ⟨pool', by rw [addSubLiterals, hc]; exact h1, h2, ?_, h4⟩
          intro v hv hne
          cases List.mem_cons.mp hv with
          | inl heq =>
            rw [heq]
            refine allNodes_regexp hc ?_ hnode
            intro v hv
            cases hv
          | inr hin => exact h3 v hin hne
        | function code' =>
          obtain ⟨pool1, hadd1, hcollected⟩ := hadd w List.mem_cons_self hw ⟨_, hc⟩ pool
          obtain ⟨pool', h1, h2, h3, h4⟩ := hrest pool1
          refine ⟨pool', ?_, fun v hv => h2 v (hcollected.mono v hv), ?_, ?_⟩
          · rw [addSubLiterals, hc]
            dsimp only
            rw [if_neg hw, hadd1]
            exact h1
          · intro v hv hne
            cases List.mem_cons.mp hv with
            | inl heq =>
              rw [heq]
              exact hcollected.nodes.imp fun c hin u hu hs => h2 u (hin u hu hs)
            | inr hin => exact h3 v hin hne
          · intro v hv
            cases h4 v hv with
            | inl hin => exact hcollected.origin v hin
            | inr hin => exact Or.inr hin

theorem addLiterals_spec {depth p : Nat} {code : FunctionCode} (hp : heap p = some (.function code))
    (htree : AllNodes heap N depth p) (pool : List Nat) :
    ∃ pool', addLiterals heap depth p pool = some pool' ∧ Collected heap N depth p pool pool' := by
  induction depth generalizing p code pool with
  | zero => exact htree.elim
  | succ depth ih =>
    obtain ⟨c, hc, hn, hsubs⟩ := htree
    rw [hp] at hc
    cases hc
    -- The pool before the loop over the functions.
    let mapped := if hasMappedArguments code.flags then code.words.take code.args.argumentEnd else []
    let pool1 := appendValues (appendValues pool mapped) code.consts
    obtain ⟨pool2, h1, h2, h3, h4⟩ := addSubLiterals_spec hp hsubs
      (fun w hw hne hfun pool => ih hfun.choose_spec (hsubs w hw hne) pool) pool1
    have hmapped : (if hasMappedArguments code.flags then appendValues pool (code.words.take code.args.argumentEnd)
        else pool) = appendValues pool mapped := by
      by_cases hm : hasMappedArguments code.flags = true
      · simp only [mapped, if_pos hm]
      · simp only [mapped, if_neg hm]
        rfl
    have hmem1 : ∀ w, w ∈ pool1 ↔ w ∈ pool ∨ w ∈ mapped ++ code.consts ∧ isSaved w = true := by
      intro w
      simp only [pool1, mem_appendValues, List.mem_append]
      tauto
    refine ⟨appendValues pool2 code.values, ?_, ?_, ?_, ?_⟩
    · rw [addLiterals, hp]
      dsimp only
      rw [hmapped, show code.subWords = (Compiled.function code).subWords from rfl, h1]
      rfl
    · intro w hw
      exact mem_appendValues.mpr (Or.inl (h2 w ((hmem1 w).mpr (Or.inl hw))))
    · refine ⟨_, hp, ?_, ?_⟩
      · intro w hw hs
        simp only [Compiled.collected, List.mem_append] at hw
        have hcases : w ∈ mapped ++ code.consts ∨ w ∈ code.values := by
          rw [List.mem_append]
          exact (or_assoc.mpr hw)
        cases hcases with
        | inl hin => exact mem_appendValues.mpr (Or.inl (h2 w ((hmem1 w).mpr (Or.inr ⟨hin, hs⟩))))
        | inr hin => exact mem_appendValues.mpr (Or.inr ⟨hin, hs⟩)
      · intro w hw hne
        exact (h3 w hw hne).imp fun c hin u hu hs => mem_appendValues.mpr (Or.inl (hin u hu hs))
    · intro w hw
      have hcollected : (Compiled.function code).collected = mapped ++ (code.consts ++ code.values) := rfl
      cases mem_appendValues.mp hw with
      | inr hin =>
        refine Or.inr ⟨_, hn, ?_, hin.2⟩
        rw [hcollected, List.mem_append, List.mem_append]
        exact Or.inr (Or.inr hin.1)
      | inl hin =>
        cases h4 w hin with
        | inr hlater => exact Or.inr hlater
        | inl hfirst =>
          cases (hmem1 w).mp hfirst with
          | inl hbefore => exact Or.inl hbefore
          | inr hhere =>
            refine Or.inr ⟨_, hn, ?_, hhere.2⟩
            rw [hcollected, ← List.append_assoc, List.mem_append]
            exact Or.inl hhere.1

end

/-! ## Other literals in the same blocks -/

/-- The parts of a function in the buffer do not overlap. -/
def Block.Regular : Block → Prop
  | .regexp _ _ _ _ => True
  | .function code => code.Regular

/-- A block with other words for its constants and values. -/
def Block.Rewritten (f g : Nat → Option Nat) : Block → Block → Prop
  | .regexp size refs flags source, b => b = .regexp size refs flags source
  | .function code, b => ∃ code', b = .function code' ∧ code.mapValues f g = some code'

section

variable {f g : Nat → Option Nat}

theorem mapValues_spec {code code' : FunctionCode} (h : code.Regular) (hmap : code.mapValues f g = some code') :
    SameShape code code' ∧ code'.flags = code.flags ∧
      Parts code' code'.consts code.subWords code.byteCode code'.values ∧
      List.Forall₂ (fun w v => f w = some v) code.consts code'.consts ∧
      List.Forall₂ (fun w v => g w = some v) code.values code'.values := by
  unfold FunctionCode.mapValues at hmap
  obtain ⟨consts, hconsts, hmap⟩ := Option.bind_eq_some_iff.mp hmap
  obtain ⟨values, hvalues, hmap⟩ := Option.bind_eq_some_iff.mp hmap
  cases hmap
  rw [mapM_eq_some_iff] at hconsts hvalues
  have hshape : SameShape code { code with words := consts ++ (code.subWords ++ (code.byteCode ++ values)) } :=
    ⟨rfl, rfl, rfl, rfl, rfl⟩
  have hparts := hshape.parts h.parts rfl hconsts.length_eq.symm rfl hvalues.length_eq.symm
  refine ⟨hshape, rfl, ?_, ?_, ?_⟩
  · rw [hparts.consts_eq, hparts.values_eq]
    exact hparts
  · rw [hparts.consts_eq]
    exact hconsts
  · rw [hparts.values_eq]
    exact hvalues

theorem Parts.regular {code : FunctionCode} {consts subs byteCode values : List Nat}
    (h : Parts code consts subs byteCode values) : code.Regular := by
  have hlen := congrArg List.length h.words
  simp only [List.length_append] at hlen
  have h1 := h.consts_length
  have h2 := h.subs_length
  have h3 := h.values_length
  unfold FunctionCode.Regular
  omega

theorem mapValues_words_length {code code' : FunctionCode} (h : code.Regular) (hmap : code.mapValues f g = some code') :
    code'.words.length = code.words.length := by
  obtain ⟨-, -, hparts, hconsts, hvalues⟩ := mapValues_spec h hmap
  rw [hparts.words, h.parts.words]
  simp only [List.length_append, hconsts.length_eq, hvalues.length_eq]

theorem Block.Rewritten.extent {b b' : Block} (h : b.Regular) (hb : Block.Rewritten f g b b') :
    b'.extent = b.extent ∧ b'.codeSize = b.codeSize ∧ b'.Regular := by
  cases b with
  | regexp size refs flags source =>
    have heq : b' = .regexp size refs flags source := hb
    rw [heq]
    exact ⟨rfl, rfl, trivial⟩
  | function code =>
    obtain ⟨code', heq, hmap⟩ := hb
    obtain ⟨hshape, -, hparts, -⟩ := mapValues_spec h hmap
    rw [heq]
    refine ⟨?_, ?_, hparts.regular⟩
    · rw [Block.extent, Block.extent, hshape.headerSize, mapValues_words_length h hmap]
    · rw [Block.codeSize, Block.codeSize, hshape.size]

theorem extents_rewritten {blocks blocks' : List Block} (h : ∀ b ∈ blocks, b.Regular)
    (hb : List.Forall₂ (Block.Rewritten f g) blocks blocks') : extents blocks' = extents blocks := by
  induction hb with
  | nil => rfl
  | cons hab _ ih =>
    rw [extents_cons, extents_cons, (hab.extent (h _ List.mem_cons_self)).1,
      ih fun b hb => h b (List.mem_cons_of_mem _ hb)]

theorem blockAt_rewritten {blocks blocks' : List Block} (h : ∀ b ∈ blocks, b.Regular)
    (hb : List.Forall₂ (Block.Rewritten f g) blocks blocks') {base offset : Nat} {b : Block}
    (hat : blockAt blocks base offset = some b) :
    ∃ b', blockAt blocks' base offset = some b' ∧ Block.Rewritten f g b b' := by
  induction hb generalizing base with
  | nil => cases hat
  | @cons c c' bs bs' hab _ ih =>
    rw [blockAt] at hat ⊢
    by_cases heq : offset = base
    · rw [if_pos heq] at hat ⊢
      cases hat
      exact ⟨c', rfl, hab⟩
    · rw [if_neg heq] at hat ⊢
      rw [(hab.extent (h c List.mem_cons_self)).1]
      exact ih (fun b hb => h b (List.mem_cons_of_mem c hb)) hat

/-- The tree is still stored, with its literals translated once more. -/
theorem Stored.rewrite {heap : CodeHeap} {R V R' V' : Nat → Nat → Prop} {blocks blocks' : List Block}
    {base depth p offset : Nat} (hR : ∀ w u v, R w u → f u = some v → R' w v)
    (hV : ∀ w u v, V w u → g u = some v → V' w v) (h : ∀ b ∈ blocks, b.Regular)
    (hb : List.Forall₂ (Block.Rewritten f g) blocks blocks') (hstored : Stored heap R V blocks base depth p offset) :
    Stored heap R' V' blocks' base depth p offset := by
  induction depth generalizing p offset with
  | zero => exact hstored
  | succ depth ih =>
    unfold Stored at hstored ⊢
    cases hc : heap p with
    | none => rw [hc] at hstored; exact hstored
    | some c =>
      rw [hc] at hstored
      cases c with
      | regexp flags source =>
        obtain ⟨size, hat⟩ := hstored
        obtain ⟨b', hat', hrew⟩ := blockAt_rewritten h hb hat
        have heq : b' = _ := hrew
        exact ⟨size, by rw [← heq]; exact hat'⟩
      | function code =>
        obtain ⟨code', hat, htrans, hsubs⟩ := hstored
        obtain ⟨b', hat', code'', heq, hmap⟩ := blockAt_rewritten h hb hat
        obtain ⟨hshape, hflags, hparts, hconsts, hvalues⟩ := mapValues_spec htrans.regular hmap
        refine ⟨code'', by rw [← heq]; exact hat', ?_, ?_⟩
        · refine ⟨hflags.trans htrans.flags, ?_, hparts.regular, forall₂_trans hR htrans.consts hconsts,
            forall₂_trans hV htrans.values hvalues, hparts.byteCode_eq.trans htrans.byteCode⟩
          exact ⟨hshape.args.trans htrans.shape.args, hshape.size.trans htrans.shape.size,
            hshape.uint16.trans htrans.shape.uint16, hshape.mapped.trans htrans.shape.mapped,
            hshape.type.trans htrans.shape.type⟩
        · rw [hparts.subWords_eq]
          refine hsubs.imp ?_
          intro w v hsub
          by_cases hw : w = p
          · rw [if_pos hw] at hsub ⊢
            exact hsub
          · rw [if_neg hw] at hsub ⊢
            exact ⟨hsub.1, ih hsub.2⟩

end

/-! ## Setting the offsets -/

/-- The literals are set in every block, and the sizes in the headers are right. -/
theorem setOffsets_eq_some_iff {map : List (Nat × Nat)} {blocks blocks' : List Block} :
    setOffsets map blocks = some blocks' ↔
      (∀ b ∈ blocks, b.codeSize = b.extent) ∧
        List.Forall₂ (Block.Rewritten (setConst map) (setValue map)) blocks blocks' := by
  have hone : ∀ b b', setBlockOffsets map b = some b' ↔
      b.codeSize = b.extent ∧ Block.Rewritten (setConst map) (setValue map) b b' := by
    intro b b'
    unfold setBlockOffsets
    by_cases hsize : b.codeSize = b.extent
    · rw [if_pos hsize]
      cases b with
      | regexp size refs flags source =>
        constructor
        · intro h
          cases h
          exact ⟨hsize, rfl⟩
        · intro h
          rw [show b' = .regexp size refs flags source from h.2]
      | function code =>
        constructor
        · intro h
          obtain ⟨code', hmap, heq⟩ := Option.map_eq_some_iff.mp h
          exact ⟨hsize, code', heq.symm, hmap⟩
        · intro h
          obtain ⟨-, code', heq, hmap⟩ := h
          exact Option.map_eq_some_iff.mpr ⟨code', hmap, heq.symm⟩
    · rw [if_neg hsize]
      constructor
      · intro h
        cases h
      · intro h
        exact absurd h.1 hsize
  unfold setOffsets
  rw [mapM_eq_some_iff]
  simp only [hone]
  constructor
  · intro h
    refine ⟨?_, h.imp fun _ _ hab => hab.2⟩
    intro b hb
    induction h with
    | nil => cases hb
    | cons hab _ ih =>
      cases List.mem_cons.mp hb with
      | inl heq => rw [heq]; exact hab.1
      | inr hin => exact ih hin
  · intro h
    obtain ⟨hsize, h⟩ := h
    induction h with
    | nil => exact List.Forall₂.nil
    | cons hab _ ih =>
      exact List.Forall₂.cons ⟨hsize _ List.mem_cons_self, hab⟩ (ih fun b hb => hsize b (List.mem_cons_of_mem _ hb))

end Snapshot
end JJS
