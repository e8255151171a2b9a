import JJS.Snapshot.RoundTrip

/-!
# JJS.Snapshot.Correct

Which trees survive `jjs_generate_snapshot` and `snapshot_load_compiled_code`. Two things stand in the way: a constant
`0n` and a stray word behind the literals are looked for in a map that does not have them, and the length of a long
string or regular expression is cut to two bytes.
-/

namespace JJS
namespace Snapshot

open Traverse
open Outcome (bind_eq_ok)

/-- The functions and regular expressions that survive. -/
def Compiled.Serializable (contents : Contents) : Compiled → Prop
  | .regexp _ source => source.length < 2 ^ 16
  | .function code =>
    bigintZero ∉ code.consts ∧
      (∀ w ∈ code.consts, ShortWord contents w) ∧ (∀ w ∈ code.values, ShortWord contents w) ∧
      (hasMappedArguments code.flags = true →
        ∀ w ∈ code.words.take code.args.argumentEnd, isSaved w = true → (contents w).isSome)

/-! ## Words -/

theorem isSaved_of_isString {w : Nat} (h : isString w = true) : isSaved w = true := by
  rw [isSaved, h]
  rfl

theorem isSaved_valueEmpty : isSaved valueEmpty = false := rfl

theorem isSaved_bigintZero : isSaved bigintZero = false := rfl

section

variable {heap : CodeHeap} {contents : Contents} {old : Nat → UInt8} {pool : List Nat} {map : List (Nat × Nat)}
  {table : List UInt8}

theorem Compiled.WellFormed.readable {c : Compiled} (h : c.WellFormed contents) : c.Readable contents := by
  cases c with
  | regexp flags source => trivial
  | function code =>
    have hvalue : ∀ w, (isSaved w = true → (contents w).isSome) → ∃ v, valueOf contents w = some v := by
      intro w hw
      unfold valueOf
      rw [← isSaved_eq]
      by_cases hs : isSaved w = true
      · obtain ⟨l, hl⟩ := Option.isSome_iff_exists.mp (hw hs)
        rw [if_pos hs, hl]
        exact ⟨_, rfl⟩
      · rw [if_neg hs]
        exact ⟨_, rfl⟩
    refine ⟨fun w hw => hvalue w (h.consts w hw).2, fun w hw => hvalue w ?_⟩
    intro hs
    cases h.values w hw with
    | inl hempty =>
      rw [hempty, isSaved_valueEmpty] at hs
      cases hs
    | inr hstring => exact hstring.2

/-- A literal of the pool and the word that replaces it have the same value, up to its length. -/
theorem loadValue_lookup (hsaved : Saved contents pool map table) (hpool : ∀ w ∈ pool, isSaved w = true) {w v : Nat}
    (h : lookup map w = some v) : loadValue table v = valueOf (narrowContents contents) w := by
  obtain ⟨hw, l, hl, hoffset, hget⟩ := hsaved.sound w v h
  have hs := hpool w hw
  rw [isSaved_eq] at hs
  rw [loadValue, if_pos hoffset, hget, valueOf, if_pos hs, narrowContents, hl]
  rfl

theorem loadValue_direct {w : Nat} (hw : isSnapshotOffset w = false) (hs : isSaved w = false) :
    loadValue table w = valueOf (narrowContents contents) w := by
  rw [isSaved_eq] at hs
  rw [loadValue, valueOf, hw, hs]
  rfl

theorem loadValue_setConst (hsaved : Saved contents pool map table) (hpool : ∀ w ∈ pool, isSaved w = true) {w v : Nat}
    (hw : isSnapshotOffset w = false) (h : setConst map w = some v) :
    loadValue table v = valueOf (narrowContents contents) w := by
  unfold setConst at h
  by_cases hliteral : isTableLiteral w = true
  · rw [if_pos hliteral] at h
    exact loadValue_lookup hsaved hpool h
  · rw [if_neg hliteral] at h
    cases h
    have hs : isSaved w = false := by
      rw [isSaved_eq, Bool.eq_false_iff.mpr hliteral]
      rfl
    exact loadValue_direct hw hs

theorem loadValue_setValue (hsaved : Saved contents pool map table) (hpool : ∀ w ∈ pool, isSaved w = true) {w v : Nat}
    (h : setValue map w = some v) : loadValue table v = valueOf (narrowContents contents) w := by
  unfold setValue at h
  by_cases hempty : w = valueEmpty
  · rw [if_pos hempty] at h
    cases h
    rw [hempty]
    exact loadValue_direct rfl rfl
  · rw [if_neg hempty] at h
    exact loadValue_lookup hsaved hpool h

/-! ## Generating -/

/-- What `jjs_generate_snapshot` did when it returned. -/
theorem generateSnapshot_ok {depth p bufferSize : Nat} {r : SnapshotFile × Nat}
    (h : generateSnapshot heap contents old depth p bufferSize = .ok r) :
    ∃ blocks g pool map table blocks',
      addCompiledCode heap bufferSize depth p ⟨headerBytes, false, false⟩ = .ok (blocks, g) ∧
      addLiterals heap depth p [] = some pool ∧
      saveLiterals contents old bufferSize g.writeOffset pool = .ok (map, table) ∧
      setOffsets map blocks = some blocks' ∧
      r = (⟨g.regexFound, g.classFound, g.writeOffset, [headerBytes], headerBytes, blocks', table⟩,
        g.writeOffset + table.length) := by
  unfold generateSnapshot at h
  obtain ⟨x, hadd, h⟩ := bind_eq_ok h
  obtain ⟨pool, hpool, h⟩ := bind_eq_ok h
  obtain ⟨y, hsave, h⟩ := bind_eq_ok h
  obtain ⟨blocks', hset, h⟩ := bind_eq_ok h
  refine ⟨x.1, x.2, pool, y.1, y.2, blocks', hadd, ?_, hsave, ?_, ?_⟩
  · cases hlit : addLiterals heap depth p [] with
    | none => rw [hlit] at hpool; cases hpool
    | some pool' => rw [hlit] at hpool; cases hpool; rfl
  · cases hsome : setOffsets y.1 x.1 with
    | none => rw [hsome] at hset; cases hset
    | some blocks => rw [hsome] at hset; cases hset; rfl
  · cases h
    rfl

/-- Every literal of the pool is one that `isSaved` and that a function has. -/
theorem Collected.saved {N : Compiled → Prop} {depth p : Nat} (h : Collected heap N depth p [] pool) :
    ∀ w ∈ pool, isSaved w = true := by
  intro w hw
  cases h.origin w hw with
  | inl hin => cases hin
  | inr hin =>
    obtain ⟨c, -, -, hs⟩ := hin
    exact hs

/-- The literals of serializable functions can be read. -/
theorem Collected.readable {depth p : Nat}
    (h : Collected heap (fun c => c.WellFormed contents ∧ c.Serializable contents) depth p [] pool) :
    ∀ w ∈ pool, (contents w).isSome := by
  intro w hw
  cases h.origin w hw with
  | inl hin => cases hin
  | inr hin =>
    obtain ⟨c, ⟨hwf, hser⟩, hmem, hs⟩ := hin
    cases c with
    | regexp flags source => cases hmem
    | function code =>
      obtain ⟨-, -, -, hmapped⟩ := hser
      unfold Compiled.collected at hmem
      cases List.mem_append.mp hmem with
      | inl hin =>
        by_cases hm : hasMappedArguments code.flags = true
        · rw [if_pos hm] at hin
          exact hmapped hm w hin hs
        · rw [if_neg hm] at hin
          cases hin
      | inr hin =>
        cases List.mem_append.mp hin with
        | inl hconst => exact (hwf.consts w hconst).2 hs
        | inr hvalue =>
          cases hwf.values w hvalue with
          | inl hempty =>
            rw [hempty, isSaved_valueEmpty] at hs
            cases hs
          | inr hstring => exact hstring.2

/-- The words of a copied function are as many as before. -/
theorem Translated.words_length {R V : Nat → Nat → Prop} {code code' : FunctionCode} (h : Translated R V code code')
    (hregular : code.Regular) : code'.words.length = code.words.length := by
  have hp := hregular.parts
  have hp' := h.regular.parts
  have h1 := hp.subs_length
  have h2 := hp'.subs_length
  have h3 := h.shape.literalCount
  have h4 := h.consts.length_eq
  have h5 := h.values.length_eq
  have h6 := congrArg List.length h.byteCode
  rw [hp.words, hp'.words]
  simp only [List.length_append]
  omega

/-- The search ends in the copy of a serializable function whose literals are in the pool. -/
theorem setBlockOffsets_some (hsaved : Saved contents pool map table) {c : Compiled} {b : Block}
    (hwf : c.WellFormed contents) (hser : c.Serializable contents)
    (hpool : ∀ w ∈ c.collected, isSaved w = true → w ∈ pool) (h : Copied c b) : ∃ b', setBlockOffsets map b = some b' := by
  unfold setBlockOffsets
  cases c with
  | regexp flags source =>
    have heq : b = .regexp ((source.length + 6 + 7) / 8 % 2 ^ 16) (source.length % 2 ^ 16) flags source := h
    have hlt : source.length < 2 ^ 16 := hser
    have hsize : b.codeSize = b.extent := by
      rw [heq]
      simp only [Block.codeSize, Block.extent, alignUp]
      omega
    rw [if_pos hsize, heq]
    exact ⟨_, rfl⟩
  | function code =>
    obtain ⟨code', heq, htrans⟩ := h
    obtain ⟨hzero, -⟩ := hser
    have hsize : b.codeSize = b.extent := by
      rw [heq, Block.codeSize, Block.extent, htrans.shape.size, htrans.shape.headerSize,
        htrans.words_length hwf.regular]
      exact hwf.size_eq
    have hconsts : ∀ w ∈ code'.consts, ∃ v, setConst map w = some v := by
      intro w hw
      obtain ⟨u, hu, hkept⟩ := forall₂_exists_right htrans.consts.flip hw
      rw [hkept.1] at hu
      unfold setConst
      by_cases hliteral : isTableLiteral w = true
      · rw [if_pos hliteral]
        have hs : isSaved w = true := by
          have hne : w ≠ bigintZero := by
            intro h6
            rw [h6] at hu
            exact hzero hu
          rw [isSaved_eq, hliteral, bne_iff_ne.mpr hne]
          rfl
        refine hsaved.found w (hpool w ?_ hs)
        exact List.mem_append_right _ (List.mem_append_left _ hu)
      · rw [if_neg hliteral]
        exact ⟨w, rfl⟩
    have hvalues : ∀ w ∈ code'.values, ∃ v, setValue map w = some v := by
      intro w hw
      obtain ⟨u, hu, hkept⟩ := forall₂_exists_right htrans.values.flip hw
      rw [hkept] at hu
      unfold setValue
      by_cases hempty : w = valueEmpty
      · rw [if_pos hempty]
        exact ⟨w, rfl⟩
      · rw [if_neg hempty]
        have hs : isSaved w = true := by
          cases hwf.values w hu with
          | inl h8 => exact absurd h8 hempty
          | inr hstring => exact isSaved_of_isString hstring.1
        refine hsaved.found w (hpool w ?_ hs)
        exact List.mem_append_right _ (List.mem_append_right _ hu)
    obtain ⟨consts, h1⟩ := mapM_some_of_forall hconsts
    obtain ⟨values, h2⟩ := mapM_some_of_forall hvalues
    rw [if_pos hsize, heq]
    dsimp only
    rw [FunctionCode.mapValues, h1, h2]
    exact ⟨_, rfl⟩

theorem Copied.regular {c : Compiled} {b : Block} (h : Copied c b) : b.Regular := by
  cases c with
  | regexp flags source =>
    have heq : b = .regexp ((source.length + 6 + 7) / 8 % 2 ^ 16) (source.length % 2 ^ 16) flags source := h
    rw [heq]
    trivial
  | function code =>
    obtain ⟨code', heq, htrans⟩ := h
    rw [heq]
    exact htrans.regular

/-- A constant of the tree and the word that replaces it. -/
def SetConst (map : List (Nat × Nat)) (w v : Nat) : Prop := isSnapshotOffset w = false ∧ setConst map w = some v

/-- What a generated snapshot is: the tree is stored in it, with the literals set from a pool. -/
structure Generated (heap : CodeHeap) (contents : Contents) (depth p : Nat) (s : SnapshotFile) (pool : List Nat)
    (map : List (Nat × Nat)) : Prop where
  collected : Collected heap (Compiled.WellFormed contents) depth p [] pool
  saved : Saved contents pool map s.table
  litTableOffset : s.litTableOffset = s.codeStart + extents s.blocks
  funcOffsets : s.funcOffsets = [s.codeStart]
  stored : Stored heap (SetConst map) (fun w v => setValue map w = some v) s.blocks s.codeStart depth p s.codeStart

variable {plain : List UInt8 → Prop} {depth p bufferSize : Nat} {s : SnapshotFile} {size : Nat}

theorem generateSnapshot_generated (hlit : ∀ w l, contents w = some l → l.WellFormed plain)
    (hroot : ∃ code, heap p = some (.function code)) (htree : AllNodes heap (Compiled.WellFormed contents) depth p)
    (h : generateSnapshot heap contents old depth p bufferSize = .ok (s, size)) :
    ∃ pool map, Generated heap contents depth p s pool map := by
  obtain ⟨code, hp⟩ := hroot
  obtain ⟨blocks, g, pool, map, table, blocks', hadd, hpool, hsave, hset, heq⟩ := generateSnapshot_ok h
  cases heq
  obtain ⟨pool', hpool', hcollected⟩ := addLiterals_spec hp htree []
  rw [hpool] at hpool'
  cases hpool'
  obtain ⟨hadded, hstored⟩ := addCompiledCode_spec (fun _ hc => hc) htree (by decide) hadd
  have hregular : ∀ b ∈ blocks, b.Regular := by
    intro b hb
    obtain ⟨c, -, hcopied⟩ := hadded.copied b hb
    exact hcopied.regular
  obtain ⟨-, hrewritten⟩ := setOffsets_eq_some_iff.mp hset
  have hfirst := hstored [] [] headerBytes rfl
  rw [List.nil_append, List.append_nil] at hfirst
  refine ⟨pool, map, hcollected, (saveLiterals_ok hlit hsave).1, ?_, rfl, ?_⟩
  · show g.writeOffset = headerBytes + extents blocks'
    rw [extents_rewritten hregular hrewritten, hadded.writeOffset]
  · refine hfirst.rewrite ?_ ?_ hregular hrewritten
    · intro w u v hkept hv
      rw [← hkept.1] at hv
      exact ⟨hkept.2, hv⟩
    · intro w u v heq hv
      rw [heq]
      exact hv

theorem Generated.load (h : Generated heap contents depth p s pool map) (options : LoadOptions) :
    loadFunction s options depth 0 = treeOf (cutHeap heap) (narrowContents contents) depth p := by
  have hload := loadCompiledCode_stored
    (fun w v hwv => loadValue_setConst h.saved h.collected.saved hwv.1 hwv.2)
    (fun w v hwv => loadValue_setValue h.saved h.collected.saved hwv) options h.stored
  rw [loadFunction, h.funcOffsets, SnapshotFile.literals, if_pos h.litTableOffset]
  exact hload

/-- Generating does not get lost in the code or in the map when the tree is serializable. -/
theorem generateSnapshot_some (hlit : ∀ w l, contents w = some l → l.WellFormed plain)
    (hroot : ∃ code, heap p = some (.function code)) (htree : AllNodes heap (Compiled.WellFormed contents) depth p)
    (haccept : ∀ e, generateSnapshot heap contents old depth p bufferSize ≠ .error (.error e))
    (hser : AllNodes heap (Compiled.Serializable contents) depth p) :
    ∃ s size, generateSnapshot heap contents old depth p bufferSize = .ok (s, size) := by
  obtain ⟨code, hp⟩ := hroot
  cases h : generateSnapshot heap contents old depth p bufferSize with
  | ok r => exact ⟨r.1, r.2, rfl⟩
  | error e =>
    cases e with
    | error e => exact absurd h (haccept e)
    | stuck =>
      exfalso
      have hboth := htree.and hser
      obtain ⟨pool, hpool, hcollected⟩ := addLiterals_spec hp hboth []
      unfold generateSnapshot at h
      cases bind_eq_error h with
      | inl hadd => exact addCompiledCode_not_stuck htree hadd
      | inr hnext =>
        obtain ⟨x, hadd, h⟩ := hnext
        dsimp only at h
        rw [hpool] at h
        cases bind_eq_error h with
        | inl hlits => cases hlits
        | inr hnext =>
          obtain ⟨pool', heq, h⟩ := hnext
          cases heq
          cases bind_eq_error h with
          | inl hsave => exact saveLiterals_not_stuck hcollected.readable _ _ hsave
          | inr hnext =>
            obtain ⟨y, hsave, h⟩ := hnext
            have hsaved := (saveLiterals_ok hlit hsave).1
            obtain ⟨hadded, -⟩ := addCompiledCode_spec (fun _ hc => hc.1.1) (hboth.and hcollected.nodes) (by decide) hadd
            have hblocks : ∀ b ∈ x.1, ∃ b', setBlockOffsets y.1 b = some b' := by
              intro b hb
              obtain ⟨c, ⟨⟨hwf, hc⟩, hmem⟩, hcopied⟩ := hadded.copied b hb
              exact setBlockOffsets_some hsaved hwf hc hmem hcopied
            obtain ⟨blocks, hset⟩ := mapM_some_of_forall hblocks
            have hset' : setOffsets y.1 x.1 = some blocks := hset
            rw [hset'] at h
            cases h

/-- What the passes over the literals found when they returned. -/
theorem Generated.found (h : Generated heap contents depth p s pool map)
    (hshort : AllNodes heap (Compiled.Short contents) depth p) : AllNodes heap (Compiled.Serializable contents) depth p := by
  refine ((h.stored.allNodes.and h.collected.nodes).and hshort).imp ?_
  intro c hc
  obtain ⟨⟨hconsts, hmem⟩, hshort⟩ := hc
  cases c with
  | regexp flags source => exact hshort
  | function code =>
    refine ⟨?_, hshort.1, hshort.2, ?_⟩
    · intro hzero
      obtain ⟨v, -, hv⟩ := hconsts bigintZero hzero
      have hlookup : lookup map bigintZero = some v := hv
      have hs := h.collected.saved _ (h.saved.sound _ _ hlookup).1
      rw [isSaved_bigintZero] at hs
      cases hs
    · intro hm w hw hs
      have hin : w ∈ (Compiled.function code).collected := by
        refine List.mem_append_left _ ?_
        rw [if_pos hm]
        exact hw
      obtain ⟨v, hv⟩ := h.saved.found w (hmem w hin hs)
      obtain ⟨-, l, hl, -⟩ := h.saved.sound w v hv
      rw [hl]
      rfl

end

/-! ## The round trip -/

/-- A tree that is accepted by `jjs_generate_snapshot` comes back from its snapshot, in both modes, if and only if its
functions and regular expressions are serializable. -/
theorem snapshot_round_trip {plain : List UInt8 → Prop} {heap : CodeHeap} {contents : Contents} {old : Nat → UInt8}
    {depth p bufferSize : Nat} (hlit : ∀ w l, contents w = some l → l.WellFormed plain)
    (hroot : ∃ code, heap p = some (.function code)) (htree : AllNodes heap (Compiled.WellFormed contents) depth p)
    (haccept : ∀ e, generateSnapshot heap contents old depth p bufferSize ≠ .error (.error e)) :
    (∃ s size, generateSnapshot heap contents old depth p bufferSize = .ok (s, size) ∧
        ∀ options, loadFunction s options depth 0 = treeOf heap contents depth p) ↔
      AllNodes heap (Compiled.Serializable contents) depth p := by
  have hreadable := htree.imp fun c hc => hc.readable
  constructor
  · intro h
    obtain ⟨s, size, hgen, hload⟩ := h
    obtain ⟨pool, map, hg⟩ := generateSnapshot_generated hlit hroot htree hgen
    have hnarrow : treeOf (cutHeap heap) (narrowContents contents) depth p = treeOf heap contents depth p := by
      rw [← hg.load ⟨true, false⟩, hload]
    exact hg.found ((treeOf_narrow_iff hreadable).mp hnarrow)
  · intro hser
    obtain ⟨s, size, hgen⟩ := generateSnapshot_some hlit hroot htree haccept hser
    obtain ⟨pool, map, hg⟩ := generateSnapshot_generated hlit hroot htree hgen
    refine ⟨s, size, hgen, ?_⟩
    intro options
    rw [hg.load options]
    refine (treeOf_narrow_iff hreadable).mpr (hser.imp ?_)
    intro c hc
    cases c with
    | regexp flags source => exact hc
    | function code => exact ⟨hc.2.1, hc.2.2.1⟩

/-- A script with one constant and no name. -/
def scriptWith (w : Nat) : FunctionCode where
  size := 4
  flags := 3 <<< 12
  args := ⟨1, 0, 0, 0, 1, 1⟩
  words := [w, 0, 0, valueEmpty]

def scriptHeap (w : Nat) : CodeHeap := fun p => if p = 0 then some (.function (scriptWith w)) else none

theorem scriptWith_headerSize (w : Nat) : (scriptWith w).headerSize = 16 := by
  show (if (3 <<< 12).testBit 1 = true then 24 else 16) = 16
  decide

theorem scriptWith_valueCount (w : Nat) : (scriptWith w).valueCount = 1 := by
  show ((if (3 <<< 12).testBit 3 = true then 0 else 0) + if (3 <<< 12) >>> 12 ≠ 2 then 1 else 0) = 1
  decide

theorem scriptWith_values (w : Nat) : (scriptWith w).values = [valueEmpty] := by
  rw [FunctionCode.values, scriptWith_valueCount]
  rfl

theorem scriptWith_wellFormed {contents : Contents} {w : Nat} (hw : isSnapshotOffset w = false)
    (hs : isSaved w = true → (contents w).isSome) : (scriptWith w).WellFormed contents where
  isFunction := rfl
  flags_lt := by
    show 3 <<< 12 < 2 ^ 16
    decide
  size_eq := by
    rw [scriptWith_headerSize]
    rfl
  regular := by
    rw [FunctionCode.Regular, scriptWith_valueCount]
    exact ⟨Nat.le_refl 1, show 1 + 1 ≤ 4 by decide⟩
  consts := by
    intro v hv
    rw [show (scriptWith w).consts = [w] from rfl, List.mem_singleton] at hv
    rw [hv]
    exact ⟨hw, hs⟩
  values := by
    intro v hv
    rw [scriptWith_values, List.mem_singleton] at hv
    exact Or.inl hv

theorem scriptHeap_allNodes {N : Compiled → Prop} {w : Nat} (h : N (.function (scriptWith w))) :
    AllNodes (scriptHeap w) N 1 0 := by
  refine ⟨_, rfl, h, ?_⟩
  intro v hv
  cases hv

/-- The script `"ab"`. -/
def stringContents : Contents := fun w => if w = 9 then some (.string [97, 98]) else none

theorem snapshot_round_trip_string :
    ∃ s size, generateSnapshot (scriptHeap 9) stringContents (fun _ => 0) 1 0 1024 = .ok (s, size) ∧
      ∀ options, loadFunction s options 1 0 = treeOf (scriptHeap 9) stringContents 1 0 := by
  have hlit : ∀ w l, stringContents w = some l → l.WellFormed fun _ => True := by
    intro w l hl
    unfold stringContents at hl
    split at hl
    · cases hl
      trivial
    · cases hl
  have hgen : ∃ r, generateSnapshot (scriptHeap 9) stringContents (fun _ => 0) 1 0 1024 = .ok r := ⟨_, rfl⟩
  refine (snapshot_round_trip hlit ⟨_, rfl⟩ (scriptHeap_allNodes (scriptWith_wellFormed rfl fun _ => rfl)) ?_).mpr
    (scriptHeap_allNodes ⟨by decide, ?_, ?_, ?_⟩)
  · intro e he
    obtain ⟨r, hr⟩ := hgen
    rw [hr] at he
    cases he
  · intro w hw _ l hl
    rw [show (scriptWith 9).consts = [9] from rfl, List.mem_singleton] at hw
    rw [hw] at hl
    cases hl
    show 2 < 2 ^ 16
    decide
  · intro w hw hs
    rw [scriptWith_values, List.mem_singleton] at hw
    rw [hw] at hs
    cases hs
  · intro hm
    cases hm

theorem bigint_zero_stuck :
    generateSnapshot (scriptHeap bigintZero) (fun _ => none) (fun _ => 0) 1 0 1024 = .error .stuck := rfl

/-- The script `0n`: the constant is not collected, and the search for it in the map does not end. -/
theorem bigint_zero_not_generated :
    AllNodes (scriptHeap bigintZero) (Compiled.WellFormed fun _ => none) 1 0 ∧
      (∀ e, generateSnapshot (scriptHeap bigintZero) (fun _ => none) (fun _ => 0) 1 0 1024 ≠ .error (.error e)) ∧
      ¬ ∃ s size, generateSnapshot (scriptHeap bigintZero) (fun _ => none) (fun _ => 0) 1 0 1024 = .ok (s, size) ∧
        ∀ options, loadFunction s options 1 0 = treeOf (scriptHeap bigintZero) (fun _ => none) 1 0 := by
  refine ⟨scriptHeap_allNodes (scriptWith_wellFormed rfl fun h => nomatch h), ?_, ?_⟩
  · intro e he
    rw [bigint_zero_stuck] at he
    cases he
  · intro h
    obtain ⟨s, size, hgen, -⟩ := h
    rw [bigint_zero_stuck] at hgen
    cases hgen

/-! ## The size -/

/-- The table of a snapshot lies behind its code, and it ends in the buffer just when the code does: the space for the table
wraps around when the code ends behind the buffer. It can do so by less than eight bytes, and only when the size of the
buffer is no multiple of eight. -/
theorem generateSnapshot_fits {plain : List UInt8 → Prop} {heap : CodeHeap} {contents : Contents} {old : Nat → UInt8}
    {depth p bufferSize : Nat} {s : SnapshotFile} {size : Nat} (hlit : ∀ w l, contents w = some l → l.WellFormed plain)
    (hroot : ∃ code, heap p = some (.function code)) (htree : AllNodes heap (Compiled.WellFormed contents) depth p)
    (h : generateSnapshot heap contents old depth p bufferSize = .ok (s, size)) :
    size = s.codeStart + extents s.blocks + s.table.length ∧
      (size ≤ bufferSize ↔ s.codeStart + extents s.blocks ≤ bufferSize) ∧
      s.codeStart + extents s.blocks < bufferSize + 8 ∧ (8 ∣ bufferSize → size ≤ bufferSize) := by
  obtain ⟨_, _, hgenerated⟩ := generateSnapshot_generated hlit hroot htree h
  rw [← hgenerated.litTableOffset]
  obtain ⟨_, g, pool, map, table, _, hadd, -, hsave, -, heq⟩ := generateSnapshot_ok h
  cases heq
  have hend := addCompiledCode_lt hadd
  have haligned := (addCompiledCode_spec (fun _ hc => hc) htree (by decide) hadd).1.aligned
  have htable : g.writeOffset ≤ bufferSize → g.writeOffset + table.length ≤ bufferSize := by
    intro hle
    have hlength := (saveLiterals_ok hlit hsave).2
    obtain ⟨_, hpool, -⟩ := bind_eq_ok hsave
    have hpool := literalsSize_le hpool (Nat.zero_le _)
    omega
  refine ⟨rfl, ⟨fun hle => ?_, htable⟩, hend, fun hunits => htable ?_⟩
  · exact Nat.le_trans (Nat.le_add_right _ _) hle
  · dsimp only at hend haligned
    omega

/-- The script `"ab"` in a buffer that it nearly fills. -/
theorem generateSnapshot_fits_string : ∃ s, generateSnapshot (scriptHeap 9) stringContents (fun _ => 0) 1 0 64 = .ok (s, 60) ∧
    60 = s.codeStart + extents s.blocks + s.table.length ∧ s.codeStart + extents s.blocks ≤ 64 := by
  have hlit : ∀ w l, stringContents w = some l → l.WellFormed fun _ => True := by
    intro w l hl
    unfold stringContents at hl
    split at hl
    · cases hl
      trivial
    · cases hl
  obtain ⟨s, hs⟩ : ∃ s, generateSnapshot (scriptHeap 9) stringContents (fun _ => 0) 1 0 64 = .ok (s, 60) := ⟨_, rfl⟩
  obtain ⟨hsize, hfits, -⟩ := generateSnapshot_fits hlit ⟨_, rfl⟩
    (scriptHeap_allNodes (scriptWith_wellFormed rfl fun _ => rfl)) hs
  exact ⟨s, hs, hsize, hfits.mp (by decide)⟩

end Snapshot
end JJS
