import JJS.Lib.OrderedMap
import JJS.Container.Basic
import Mathlib.Data.List.ReduceOption
import Mathlib.Tactic.Common

/-!
# JJS.Container.Refine

Runs of the Map and Set routines refine an insertion-ordered association list whose keys are
compared by SameValueZero.

`Rel` reads the flat buffer as a list of entries and tombstones: the elements are its encoding, the
tracked size is the number of its entries, and its entries are those of the abstract table. Each
routine keeps it (`step_rel`), except `ecma_op_container_set` on a key of a map that is there
already, with the value `-0`: the update path normalises the value, the append path the key. So a
run refines the table exactly when no step of it does that (`container_refines_iff`).
-/

namespace JJS
namespace Container

open OrderedMap

/-! ## The entries of a buffer -/

/-- An entry of the buffer, or the tombstone that `delete` and `clear` leave in its place. -/
abbrev Cell := Option (EcmaValue × EcmaValue)

def encodeCell (litId : ContainerId) : Cell → List EcmaValue
  | some (k, v) => if litId.isMap then [k, v] else [k]
  | none => if litId.isMap then [.empty, .empty] else [.empty]

def encode (litId : ContainerId) (cells : List Cell) : List EcmaValue := cells.flatMap (encodeCell litId)

theorem length_encodeCell (litId : ContainerId) (c : Cell) :
    (encodeCell litId c).length = ecmaOpContainerEntrySize litId := by
  unfold encodeCell ecmaOpContainerEntrySize
  cases c <;> cases litId.isMap <;> rfl

theorem encode_cons (litId : ContainerId) (c : Cell) (cs : List Cell) :
    encode litId (c :: cs) = encodeCell litId c ++ encode litId cs := List.flatMap_cons

theorem encode_append (litId : ContainerId) (cs ds : List Cell) :
    encode litId (cs ++ ds) = encode litId cs ++ encode litId ds := List.flatMap_append

theorem length_encode (litId : ContainerId) (cells : List Cell) :
    (encode litId cells).length = cells.length * ecmaOpContainerEntrySize litId := by
  induction cells with
  | nil => simp [encode]
  | cons c cs ih => rw [encode_cons, List.length_append, length_encodeCell, ih, List.length_cons, Nat.succ_mul,
      Nat.add_comm]

theorem entrySize_pos (litId : ContainerId) : 0 < ecmaOpContainerEntrySize litId := by
  cases litId <;> decide

/-- The loops visit the first element of each cell. -/
theorem entryIndices_encode {litId : ContainerId} {b : Buffer} {cells : List Cell}
    (h : b.items = encode litId cells) :
    entryIndices litId b = List.range' 0 cells.length (ecmaOpContainerEntrySize litId) := by
  have hpos := entrySize_pos litId
  have hdiv : (cells.length * ecmaOpContainerEntrySize litId + ecmaOpContainerEntrySize litId - 1) /
      ecmaOpContainerEntrySize litId = cells.length := by
    generalize ecmaOpContainerEntrySize litId = e at *
    rw [Nat.add_sub_assoc hpos, Nat.mul_comm, Nat.mul_add_div hpos, Nat.div_eq_of_lt (by omega), Nat.add_zero]
  simp only [entryIndices, h, length_encode, hdiv]

/-- The key of a cell, as the loops read it. -/
def cellKey : Cell → EcmaValue
  | some (k, _) => k
  | none => .empty

theorem getD_encode (litId : ContainerId) (pre : List EcmaValue) (c : Cell) (cs : List Cell) :
    (pre ++ encode litId (c :: cs)).getD pre.length .empty = cellKey c := by
  rw [encode_cons, List.getD_eq_getElem?_getD, List.getElem?_append_right (Nat.le_refl _), Nat.sub_self]
  unfold encodeCell cellKey
  cases c <;> cases litId.isMap <;> rfl

theorem getD_encode_value {litId : ContainerId} (h : litId.isMap = true) (pre post : List EcmaValue)
    (k v : EcmaValue) :
    (pre ++ (encodeCell litId (some (k, v)) ++ post)).getD (pre.length + 1) .empty = v := by
  rw [List.getD_eq_getElem?_getD, List.getElem?_append_right (by omega), Nat.add_sub_cancel_left, encodeCell,
    if_pos h]
  rfl

/-- What the search finds, from the element after `pre` on. -/
theorem find_range (litId : ContainerId) (key : EcmaValue) (cells : List Cell) :
    ∀ (pre : List EcmaValue),
      match (List.range' pre.length cells.length (ecmaOpContainerEntrySize litId)).find?
        fun i => ecmaOpSameValueZero ((pre ++ encode litId cells).getD i .empty) key false with
      | none => ∀ c ∈ cells, keyOf (cellKey c) ≠ keyOf key
      | some entry => ∃ l c r, cells = l ++ c :: r ∧ entry = (pre ++ encode litId l).length ∧
          keyOf (cellKey c) = keyOf key := by
  induction cells with
  | nil => intro pre c hc; cases hc
  | cons c cs ih =>
    intro pre
    have hnext : pre.length + ecmaOpContainerEntrySize litId = (pre ++ encodeCell litId c).length := by
      rw [List.length_append, length_encodeCell]
    rw [List.length_cons, List.range'_succ, List.find?_cons, getD_encode]
    cases hm : ecmaOpSameValueZero (cellKey c) key false with
    | true => exact ⟨[], c, cs, rfl, by simp [encode], (ecmaOpSameValueZero_iff _ _).mp hm⟩
    | false =>
      have hne : keyOf (cellKey c) ≠ keyOf key := by
        intro h
        rw [(ecmaOpSameValueZero_iff _ _).mpr h] at hm
        cases hm
      have hrest := ih (pre ++ encodeCell litId c)
      rw [← hnext, List.append_assoc, ← encode_cons] at hrest
      simp only
      split at hrest
      · intro d hd
        cases hd with
        | head => exact hne
        | tail _ hd => exact hrest d hd
      · obtain ⟨l, d, r, hcs, hentry, hkey⟩ := hrest
        refine ⟨c :: l, d, r, by rw [hcs, List.cons_append], ?_, hkey⟩
        rw [hentry, encode_cons, List.append_assoc]

theorem keyOf_empty_iff {v : EcmaValue} : keyOf v = .empty ↔ v = .empty := by
  constructor
  · intro h
    cases hv : v.number? with
    | some x => rw [keyOf_of_number hv] at h; cases h
    | none => rwa [keyOf_of_not_number hv] at h
  · intro h; rw [h]; rfl

/-- The search finds an entry of the key, and nothing only if there is none. -/
theorem find_encode {litId : ContainerId} {b : Buffer} {cells : List Cell} (h : b.items = encode litId cells)
    {key : EcmaValue} (hkey : key ≠ .empty) :
    match ecmaOpInternalBufferFind b key litId with
    | none => ∀ e ∈ cells.reduceOption, keyOf e.1 ≠ keyOf key
    | some entry => ∃ l k v r, cells = l ++ some (k, v) :: r ∧ entry = (encode litId l).length ∧
        keyOf k = keyOf key := by
  have hfind := find_range litId key cells []
  rw [ecmaOpInternalBufferFind, entryIndices_encode h, h]
  simp only [List.length_nil, List.nil_append] at hfind
  split
  · rename_i hn
    rw [hn] at hfind
    intro e he
    exact hfind (some e) (List.reduceOption_mem_iff.mp he)
  · rename_i entry hs
    rw [hs] at hfind
    obtain ⟨l, c, r, hc, hentry, hk⟩ := hfind
    cases c with
    | some e => exact ⟨l, e.1, e.2, r, hc, hentry, hk⟩
    | none => exact absurd (keyOf_empty_iff.mp hk.symm) hkey

/-- The cells between two others, set to a tombstone. -/
theorem emptyEntry_encode (litId : ContainerId) (pre post : List EcmaValue) (c : Cell) :
    emptyEntry (pre ++ (encodeCell litId c ++ post)) pre.length litId =
      pre ++ (encodeCell litId none ++ post) := by
  unfold emptyEntry encodeCell
  cases c <;> cases litId.isMap <;> simp [List.set_append_right]

theorem update_encode {litId : ContainerId} (h : litId.isMap = true) (pre post : List EcmaValue)
    (k v w : EcmaValue) :
    (pre ++ (encodeCell litId (some (k, v)) ++ post)).set (pre.length + 1) w =
      pre ++ (encodeCell litId (some (k, w)) ++ post) := by
  simp [encodeCell, h, List.set_append_right]

/-- The loops of `ecma_op_container_free_entries` leave only tombstones. -/
theorem free_range (litId : ContainerId) (cells : List Cell) :
    ∀ (pre : List EcmaValue), (∀ c ∈ cells, cellKey c = .empty → c = none) →
      (List.range' pre.length cells.length (ecmaOpContainerEntrySize litId)).foldl
        (fun items i => if items.getD i .empty = .empty then items else emptyEntry items i litId)
        (pre ++ encode litId cells) = pre ++ encode litId (cells.map fun _ => none) := by
  induction cells with
  | nil => intro pre _; rfl
  | cons c cs ih =>
    intro pre hcells
    have hnext : pre.length + ecmaOpContainerEntrySize litId = (pre ++ encodeCell litId none).length := by
      rw [List.length_append, length_encodeCell]
    have hstep : (if (pre ++ encode litId (c :: cs)).getD pre.length .empty = .empty then
        pre ++ encode litId (c :: cs) else emptyEntry (pre ++ encode litId (c :: cs)) pre.length litId) =
        pre ++ encodeCell litId none ++ encode litId cs := by
      rw [getD_encode, encode_cons, List.append_assoc]
      split
      · rename_i he
        rw [hcells c List.mem_cons_self he]
      · exact emptyEntry_encode litId pre _ c
    rw [List.length_cons, List.range'_succ, List.foldl_cons, hstep, hnext,
      ih _ fun d hd => hcells d (List.mem_cons_of_mem c hd), List.map_cons, encode_cons, List.append_assoc]

/-! ## The abstract table -/

/-- The value of an entry as `ecma_op_container_get_value` has it: the elements of a set are their
own values. -/
def entryValue (litId : ContainerId) (k v : EcmaValue) : EcmaValue := if litId.isMap then v else k

/-- An entry with the language value of its key. -/
def view (litId : ContainerId) (e : EcmaValue × EcmaValue) : EcmaValue × EcmaValue :=
  (language e.1, entryValue litId (language e.1) e.2)

/-- A buffer that holds the entries of a table: the tracked size counts them, their keys are language
values, and no key is `-0`. -/
def Rel (litId : ContainerId) (b : Buffer) (m : Table EcmaValue EcmaValue) : Prop :=
  ∃ cells : List Cell, b.items = encode litId cells ∧ b.size = cells.reduceOption.length ∧
    m.entries = cells.reduceOption.map (view litId) ∧
    ∀ e ∈ cells.reduceOption, e.1 ≠ .empty ∧ ecmaOpContainerSetNormalizeZero e.1 = e.1

theorem keyOf_eq_language {k : EcmaValue} (h : ecmaOpContainerSetNormalizeZero k = k) : keyOf k = language k := by
  rw [keyOf, h]

theorem mem_split {l r : List Cell} {e : EcmaValue × EcmaValue} : e ∈ (l ++ some e :: r).reduceOption :=
  List.reduceOption_mem_iff.mpr (by simp)

/-- The cells of a related buffer around an entry, and the entries of the table around it. -/
theorem entries_split {litId : ContainerId} {m : Table EcmaValue EcmaValue} {l r : List Cell} {k v key : EcmaValue}
    (h : m.entries = (l ++ some (k, v) :: r).reduceOption.map (view litId))
    (hk : ecmaOpContainerSetNormalizeZero k = k) (hkey : keyOf k = keyOf key) :
    m.entries = l.reduceOption.map (view litId) ++
      (keyOf key, entryValue litId (keyOf key) v) :: r.reduceOption.map (view litId) := by
  rw [h, List.reduceOption_append, List.reduceOption_cons_of_some, List.map_append, List.map_cons, view,
    ← hkey, keyOf_eq_language hk]

theorem not_mem_keys {litId : ContainerId} {m : Table EcmaValue EcmaValue} {cells : List Cell} {key : EcmaValue}
    (h : m.entries = cells.reduceOption.map (view litId))
    (hn : ∀ e ∈ cells.reduceOption, ecmaOpContainerSetNormalizeZero e.1 = e.1)
    (hne : ∀ e ∈ cells.reduceOption, keyOf e.1 ≠ keyOf key) : keyOf key ∉ m.keys := by
  intro hmem
  rw [Table.keys, h, List.map_map] at hmem
  obtain ⟨e, he, hek⟩ := List.mem_map.mp hmem
  refine hne e he ?_
  rw [keyOf_eq_language (hn e he)]
  exact hek

/-- What `ecma_op_container_foreach` visits in a related buffer. -/
theorem visited_range (litId : ContainerId) (cells : List Cell) :
    ∀ (pre : List EcmaValue), (∀ c ∈ cells, cellKey c = .empty → c = none) →
      (List.range' pre.length cells.length (ecmaOpContainerEntrySize litId)).filterMap (fun i =>
        if (pre ++ encode litId cells).getD i .empty = .empty then none
        else some ((pre ++ encode litId cells).getD i .empty,
          (pre ++ encode litId cells).getD (if litId.isMap then i + 1 else i) .empty)) =
      cells.reduceOption.map fun e => (e.1, entryValue litId e.1 e.2) := by
  induction cells with
  | nil => intro pre _; rfl
  | cons c cs ih =>
    intro pre hcells
    have hnext : pre.length + ecmaOpContainerEntrySize litId = (pre ++ encodeCell litId c).length := by
      rw [List.length_append, length_encodeCell]
    have hrest := ih (pre ++ encodeCell litId c) fun d hd => hcells d (List.mem_cons_of_mem c hd)
    rw [← hnext, List.append_assoc, ← encode_cons] at hrest
    rw [List.length_cons, List.range'_succ, List.filterMap_cons, getD_encode, hrest]
    cases c with
    | none => simp [cellKey]
    | some e =>
      have hk : cellKey (some e) ≠ .empty := fun he => by cases hcells (some e) List.mem_cons_self he
      have hv : (pre ++ encode litId (some e :: cs)).getD
          (if litId.isMap then pre.length + 1 else pre.length) .empty = entryValue litId e.1 e.2 := by
        unfold entryValue
        split
        · rename_i hm
          rw [encode_cons, getD_encode_value hm]
        · exact getD_encode litId pre (some e) cs
      rw [hv, if_neg hk, List.reduceOption_cons_of_some, List.map_cons]
      rfl

theorem cellKey_empty {cells : List Cell} (h : ∀ e ∈ cells.reduceOption, e.1 ≠ .empty) :
    ∀ c ∈ cells, cellKey c = .empty → c = none := by
  intro c hc he
  cases c with
  | none => rfl
  | some e => exact absurd he (h e (List.reduceOption_mem_iff.mpr hc))

theorem visited_encode {litId : ContainerId} {b : Buffer} {cells : List Cell} (h : b.items = encode litId cells)
    (hk : ∀ e ∈ cells.reduceOption, e.1 ≠ .empty) :
    (visited b litId).map (view litId) = cells.reduceOption.map (view litId) := by
  have hv := visited_range litId cells [] (cellKey_empty hk)
  simp only [List.length_nil, List.nil_append] at hv
  unfold visited ecmaOpContainerGetValue
  rw [entryIndices_encode h, h, hv, List.map_map]
  refine List.map_congr_left fun e _ => ?_
  simp only [Function.comp_apply, view, entryValue]
  split <;> rfl

/-! ## Runs -/

/-- A value that a script can hold. -/
abbrev Language := { v : EcmaValue // v ≠ .empty }

/-- A call of a routine of `Map.prototype` or `Set.prototype`. -/
inductive Op where
  | set (key value : Language)
  | delete (key : Language)
  | clear
  | get (key : Language)
  | has (key : Language)
  | size

/-- The prototype has the routine: `get` belongs to the maps. -/
def Op.Callable (litId : ContainerId) : Op → Prop
  | .get _ => litId.isMap = true
  | _ => True

def step (litId : ContainerId) (b : Buffer) : Op → Result × Buffer
  | .set key value => ecmaOpContainerSet b key value litId
  | .delete key => ecmaOpContainerDelete b key litId
  | .clear => ecmaOpContainerClear b litId
  | .get key => (ecmaOpContainerGet b key litId, b)
  | .has key => (ecmaOpContainerHas b key litId, b)
  | .size => (ecmaOpContainerSize b, b)

/-- The same call on an insertion-ordered association list. -/
def specStep (litId : ContainerId) (m : Table EcmaValue EcmaValue) : Op → Result × Table EcmaValue EcmaValue
  | .set key value => (.this, m.set (keyOf key) (entryValue litId (keyOf key) value))
  | .delete key => (.value (.boolean (keyOf key ∈ m.keys)), m.erase (keyOf key))
  | .clear => (.value .undefined, Table.empty)
  | .get key => (.value ((m.lookup (keyOf key)).getD .undefined), m)
  | .has key => (.value (.boolean (keyOf key ∈ m.keys)), m)
  | .size => (.value (ecmaMakeUint32Value m.entries.length), m)

def run (litId : ContainerId) (b : Buffer) : List Op → List Result × Buffer
  | [] => ([], b)
  | op :: ops =>
    let s := step litId b op
    let rest := run litId s.2 ops
    (s.1 :: rest.1, rest.2)

def specRun (litId : ContainerId) (m : Table EcmaValue EcmaValue) :
    List Op → List Result × Table EcmaValue EcmaValue
  | [] => ([], m)
  | op :: ops =>
    let s := specStep litId m op
    let rest := specRun litId s.2 ops
    (s.1 :: rest.1, rest.2)

/-- The calls return what the association list says, and then `forEach` visits its entries. -/
def Agrees (litId : ContainerId) (b : Buffer) (m : Table EcmaValue EcmaValue) (ops : List Op) : Prop :=
  (run litId b ops).1 = (specRun litId m ops).1 ∧
    (visited (run litId b ops).2 litId).map (view litId) = (specRun litId m ops).2.entries

/-- A run of a new container refines the association list in every state it reaches. -/
def Refines (litId : ContainerId) (ops : List Op) : Prop :=
  ∀ pre, pre <+: ops → Agrees litId ecmaOpCreateInternalBuffer Table.empty pre

def isNegativeZero (v : EcmaValue) : Bool :=
  match v.number? with
  | some x => x.isZero && x.isNegative
  | none => false

/-- The call does not update a key of a map that is there already with the value `-0`. -/
def KeepsSign (litId : ContainerId) (b : Buffer) : Op → Prop
  | .set key value => litId.isMap = true → (ecmaOpInternalBufferFind b key litId).isSome →
      isNegativeZero value = false
  | _ => True

/-- No call of the run does, in the state before it. -/
def RunKeepsSign (litId : ContainerId) (b : Buffer) : List Op → Prop
  | [] => True
  | op :: ops => KeepsSign litId b op ∧ RunKeepsSign litId (step litId b op).2 ops

theorem normalizeZero_of_not {v : EcmaValue} (h : isNegativeZero v = false) :
    ecmaOpContainerSetNormalizeZero v = v := by
  unfold isNegativeZero at h
  unfold ecmaOpContainerSetNormalizeZero
  split
  · rename_i x hx
    rw [hx] at h
    simp only at h
    rw [h]
    rfl
  · rfl

theorem normalizeZero_of_negativeZero {v : EcmaValue} (h : isNegativeZero v = true) :
    ecmaOpContainerSetNormalizeZero v ≠ v := by
  unfold isNegativeZero at h
  split at h
  · rename_i x hx
    rw [ecmaOpContainerSetNormalizeZero, hx]
    simp only [h, if_true]
    intro hv
    rw [← hv] at hx
    cases hx
    simp [Number.ofInteger, Number.isNegative] at h
  · cases h

/-- A key is stored without its sign of zero. -/
theorem normalizeZero_idem (v : EcmaValue) :
    ecmaOpContainerSetNormalizeZero (ecmaOpContainerSetNormalizeZero v) = ecmaOpContainerSetNormalizeZero v := by
  cases h : isNegativeZero v with
  | false => rw [normalizeZero_of_not h, normalizeZero_of_not h]
  | true =>
    have hz : ecmaOpContainerSetNormalizeZero v = .integer 0 := by
      unfold isNegativeZero at h
      split at h
      · rename_i x hx
        rw [ecmaOpContainerSetNormalizeZero, hx]
        simp only [h, if_true]
      · cases h
    rw [hz]
    exact normalizeZero_of_not (by simp [isNegativeZero, EcmaValue.number?, Number.ofInteger, Number.isNegative])

/-! ## Steps of a related buffer -/

section Steps

variable {litId : ContainerId} {b : Buffer} {m : Table EcmaValue EcmaValue} {key value : EcmaValue}

theorem rel_create : Rel litId ecmaOpCreateInternalBuffer Table.empty :=
  ⟨[], rfl, rfl, rfl, by intro e he; cases he⟩

theorem Rel.visited (h : Rel litId b m) : (visited b litId).map (view litId) = m.entries := by
  obtain ⟨cells, hitems, -, hentries, hkeys⟩ := h
  rw [visited_encode hitems fun e he => (hkeys e he).1, hentries]

theorem Rel.size (h : Rel litId b m) : b.size = m.entries.length := by
  obtain ⟨cells, -, hsize, hentries, -⟩ := h
  rw [hsize, hentries, List.length_map]

/-- The search in a related buffer: no entry, or the place of the entry in both. -/
theorem Rel.find (h : Rel litId b m) (hkey : key ≠ .empty) :
    (ecmaOpInternalBufferFind b key litId = none ∧ keyOf key ∉ m.keys) ∨
    ∃ l k v r, ecmaOpInternalBufferFind b key litId = some (encode litId l).length ∧
      b.items = encode litId (l ++ some (k, v) :: r) ∧
      b.size = (l ++ some (k, v) :: r).reduceOption.length ∧
      m.entries = l.reduceOption.map (view litId) ++
        (keyOf key, entryValue litId (keyOf key) v) :: r.reduceOption.map (view litId) ∧
      keyOf k = keyOf key ∧
      ∀ e ∈ (l ++ some (k, v) :: r).reduceOption, e.1 ≠ .empty ∧ ecmaOpContainerSetNormalizeZero e.1 = e.1 := by
  obtain ⟨cells, hitems, hsize, hentries, hkeys⟩ := h
  have hfind := find_encode hitems hkey
  split at hfind
  · rename_i hf
    exact .inl ⟨hf, not_mem_keys hentries (fun e he => (hkeys e he).2) hfind⟩
  · rename_i entry hf
    obtain ⟨l, k, v, r, hcells, rfl, hk⟩ := hfind
    subst hcells
    have hnorm : ecmaOpContainerSetNormalizeZero k = k := (hkeys (k, v) mem_split).2
    exact .inr ⟨l, k, v, r, hf, hitems, hsize, entries_split hentries hnorm hk, hk, hkeys⟩

/-- A table around an entry of the searched key is a table of the cells around it. -/
theorem map_view_split {l r : List Cell} {k v : EcmaValue} (hk : keyOf k = keyOf key)
    (hnorm : ecmaOpContainerSetNormalizeZero k = k) :
    (l ++ some (k, v) :: r).reduceOption.map (view litId) = l.reduceOption.map (view litId) ++
      (keyOf key, entryValue litId (keyOf key) v) :: r.reduceOption.map (view litId) := by
  rw [List.reduceOption_append, List.reduceOption_cons_of_some, List.map_append, List.map_cons, view, ← hk,
    keyOf_eq_language hnorm]

theorem set_none (hw : litId.isWeak = false) (hf : ecmaOpInternalBufferFind b key litId = none) :
    ecmaOpContainerSet b key value litId =
      (.this, ecmaOpInternalBufferAppend b (ecmaOpContainerSetNormalizeZero key) value litId) := by
  simp [ecmaOpContainerSet, hw, hf]

theorem set_some {entry : Nat} (hw : litId.isWeak = false)
    (hf : ecmaOpInternalBufferFind b key litId = some entry) :
    ecmaOpContainerSet b key value litId =
      (.this, ecmaOpInternalBufferUpdate b entry (ecmaOpContainerSetNormalizeZero value) litId) := by
  simp [ecmaOpContainerSet, hw, hf]

/-- A new key goes to the end. -/
theorem Rel.append (h : Rel litId b m) (hkey : key ≠ .empty) (hmem : keyOf key ∉ m.keys) :
    Rel litId (ecmaOpInternalBufferAppend b (ecmaOpContainerSetNormalizeZero key) value litId)
      (m.set (keyOf key) (entryValue litId (keyOf key) value)) := by
  obtain ⟨cells, hitems, hsize, hentries, hkeys⟩ := h
  have hnorm := normalizeZero_idem key
  refine ⟨cells ++ [some (ecmaOpContainerSetNormalizeZero key, value)], ?_, ?_, ?_, ?_⟩
  · simp [ecmaOpInternalBufferAppend, hitems, encode, encodeCell]
  · simp [ecmaOpInternalBufferAppend, hsize, List.reduceOption_append]
  · rw [Table.entries_set_of_not_mem hmem, hentries, List.reduceOption_append, List.map_append]
    rfl
  · intro e he
    rw [List.reduceOption_append, List.mem_append] at he
    cases he with
    | inl he => exact hkeys e he
    | inr he =>
      have he' : e = (ecmaOpContainerSetNormalizeZero key, value) := by simpa using he
      rw [he']
      refine ⟨?_, hnorm⟩
      intro hempty
      refine hkey (keyOf_empty_iff.mp ?_)
      have hzero : ecmaOpContainerSetNormalizeZero key = .empty := hempty
      rw [keyOf, hzero]
      rfl

/-- The cells of a map after an update of the entry of `key`, whatever value is written. -/
theorem update_cells (hm : litId.isMap = true) {l r : List Cell} {k v w : EcmaValue}
    (hitems : b.items = encode litId (l ++ some (k, v) :: r)) :
    (ecmaOpInternalBufferUpdate b (encode litId l).length w litId).items =
      encode litId (l ++ some (k, w) :: r) := by
  simp only [ecmaOpInternalBufferUpdate, hm, if_true, hitems]
  rw [encode_append, encode_cons, update_encode hm, encode_append, encode_cons]

/-- A key that is set again keeps its place. -/
theorem rel_update (hm : litId.isMap = true) {l r : List Cell} {k v w : EcmaValue}
    (hitems : b.items = encode litId (l ++ some (k, v) :: r))
    (hsize : b.size = (l ++ some (k, v) :: r).reduceOption.length)
    (hentries : m.entries = l.reduceOption.map (view litId) ++
        (keyOf key, entryValue litId (keyOf key) v) :: r.reduceOption.map (view litId))
    (hk : keyOf k = keyOf key)
    (hkeys : ∀ e ∈ (l ++ some (k, v) :: r).reduceOption,
      e.1 ≠ .empty ∧ ecmaOpContainerSetNormalizeZero e.1 = e.1) :
    Rel litId (ecmaOpInternalBufferUpdate b (encode litId l).length w litId)
      (m.set (keyOf key) (entryValue litId (keyOf key) w)) := by
  have hnorm := (hkeys (k, v) mem_split).2
  refine ⟨l ++ some (k, w) :: r, update_cells hm hitems, ?_, ?_, ?_⟩
  · simp only [ecmaOpInternalBufferUpdate, hm, if_true, hsize, List.reduceOption_append,
      List.reduceOption_cons_of_some, List.length_append, List.length_cons]
  · rw [Table.entries_set_of_split hentries, map_view_split hk hnorm]
  · intro e he
    rw [List.reduceOption_append, List.reduceOption_cons_of_some, List.mem_append, List.mem_cons] at he
    rcases he with he | rfl | he
    · exact hkeys e (by simp [List.reduceOption_append, he])
    · exact hkeys (k, v) mem_split
    · exact hkeys e (by simp [List.reduceOption_append, he])

/-- An element of a set that is added again changes nothing. -/
theorem rel_readd (hm : litId.isMap = false) (h : Rel litId b m) {l r : List (EcmaValue × EcmaValue)}
    {v : EcmaValue} (hentries : m.entries = l ++ (keyOf key, entryValue litId (keyOf key) v) :: r) :
    Rel litId b (m.set (keyOf key) (entryValue litId (keyOf key) value)) := by
  obtain ⟨cells, hitems, hsize, hcells, hkeys⟩ := h
  refine ⟨cells, hitems, hsize, ?_, hkeys⟩
  have hv : entryValue litId (keyOf key) value = entryValue litId (keyOf key) v := by
    simp [entryValue, hm]
  rw [Table.entries_set_of_split hentries, hv, ← hentries, hcells]

theorem step_set (h : Rel litId b m) (hw : litId.isWeak = false) (key value : Language)
    (hs : KeepsSign litId b (.set key value)) :
    (step litId b (.set key value)).1 = (specStep litId m (.set key value)).1 ∧
      Rel litId (step litId b (.set key value)).2 (specStep litId m (.set key value)).2 := by
  simp only [step, specStep]
  rcases h.find key.2 with ⟨hf, hmem⟩ | ⟨l, k, v, r, hf, hitems, hsize, hentries, hk, hkeys⟩
  · rw [set_none hw hf]
    exact ⟨rfl, h.append key.2 hmem⟩
  · rw [set_some hw hf]
    refine ⟨rfl, ?_⟩
    cases hm : litId.isMap with
    | true =>
      rw [normalizeZero_of_not (hs hm (by rw [hf]; rfl))]
      exact rel_update hm hitems hsize hentries hk hkeys
    | false =>
      have hb : ecmaOpInternalBufferUpdate b (encode litId l).length (ecmaOpContainerSetNormalizeZero value)
          litId = b := by simp [ecmaOpInternalBufferUpdate, hm]
      rw [hb]
      exact rel_readd hm h hentries

theorem step_delete (h : Rel litId b m) (key : Language) :
    (step litId b (.delete key)).1 = (specStep litId m (.delete key)).1 ∧
      Rel litId (step litId b (.delete key)).2 (specStep litId m (.delete key)).2 := by
  simp only [step, specStep]
  rcases h.find key.2 with ⟨hf, hmem⟩ | ⟨l, k, v, r, hf, hitems, hsize, hentries, hk, hkeys⟩
  · obtain ⟨cells, hitems, hsize, hentries, hkeys⟩ := h
    simp only [ecmaOpContainerDelete, hf, hmem, decide_false]
    exact ⟨trivial, cells, hitems, hsize, by rw [Table.erase_of_not_mem hmem, hentries], hkeys⟩
  · have hmem : keyOf key ∈ m.keys := Table.mem_keys_of_split hentries
    simp only [ecmaOpContainerDelete, hf, hmem, decide_true]
    refine ⟨trivial, l ++ none :: r, ?_, ?_, ?_, ?_⟩
    · rw [ecmaOpInternalBufferDelete, hitems, encode_append, encode_cons, emptyEntry_encode, encode_append,
        encode_cons]
    · simp only [ecmaOpInternalBufferDelete, hsize, List.reduceOption_append, List.reduceOption_cons_of_some,
        List.reduceOption_cons_of_none, List.length_append, List.length_cons]
      omega
    · rw [Table.entries_erase_of_split hentries, List.reduceOption_append, List.reduceOption_cons_of_none,
        List.map_append]
    · intro e he
      rw [List.reduceOption_append, List.reduceOption_cons_of_none, List.mem_append] at he
      refine hkeys e ?_
      rw [List.reduceOption_append, List.reduceOption_cons_of_some, List.mem_append, List.mem_cons]
      cases he with
      | inl he => exact .inl he
      | inr he => exact .inr (.inr he)

theorem step_clear (h : Rel litId b m) :
    (step litId b .clear).1 = (specStep litId m .clear).1 ∧
      Rel litId (step litId b .clear).2 (specStep litId m .clear).2 := by
  obtain ⟨cells, hitems, hsize, hentries, hkeys⟩ := h
  have hfree := free_range litId cells [] (cellKey_empty fun e he => (hkeys e he).1)
  have hnone : (cells.map fun _ => (none : Cell)).reduceOption = [] := by
    simp [List.reduceOption]
  simp only [List.length_nil, List.nil_append] at hfree
  refine ⟨rfl, cells.map fun _ => none, ?_, ?_, ?_, ?_⟩
  · simp only [step, ecmaOpContainerClear, ecmaOpContainerFreeEntries]
    rw [entryIndices_encode hitems, hitems, hfree]
  · rw [hnone]; rfl
  · rw [hnone]; rfl
  · intro e he
    rw [hnone] at he
    cases he

theorem step_get (h : Rel litId b m) (hw : litId.isWeak = false) (hm : litId.isMap = true) (key : Language) :
    ecmaOpContainerGet b key litId = .value ((m.lookup (keyOf key)).getD .undefined) := by
  have hid : ¬ (litId = .weakMap ∧ ¬ key.1.isObject = true) := by
    intro hc
    rw [hc.1] at hw
    cases hw
  have hsz := h.size
  rw [ecmaOpContainerGet, if_neg hid]
  rcases h.find key.2 with ⟨hf, hmem⟩ | ⟨l, k, v, r, hf, hitems, hsize, hentries, hk, hkeys⟩
  · rw [hf, Table.lookup_of_not_mem hmem]
    split <;> rfl
  · have hpos : b.size ≠ 0 := by
      rw [hsz, hentries, List.length_append, List.length_cons]
      omega
    rw [if_neg hpos, hf, Table.lookup_of_split hentries, hitems, encode_append, encode_cons,
      ← List.append_assoc]
    simp only [Option.getD_some, entryValue, hm, if_true]
    rw [List.append_assoc, getD_encode_value hm]

theorem step_has (h : Rel litId b m) (hw : litId.isWeak = false) (key : Language) :
    ecmaOpContainerHas b key litId = .value (.boolean (keyOf key ∈ m.keys)) := by
  have hsz := h.size
  simp only [ecmaOpContainerHas, hw, Bool.false_eq_true, false_and, if_false]
  rcases h.find key.2 with ⟨hf, hmem⟩ | ⟨l, k, v, r, hf, hitems, hsize, hentries, hk, hkeys⟩
  · simp only [hf, hmem, decide_false, Option.isSome_none]
    split <;> rfl
  · have hpos : b.size ≠ 0 := by
      rw [hsz, hentries, List.length_append, List.length_cons]
      omega
    simp [hpos, hf, Table.mem_keys_of_split hentries]

end Steps

/-! ## Whole runs -/

variable {litId : ContainerId} {b : Buffer} {m : Table EcmaValue EcmaValue}

theorem step_rel (h : Rel litId b m) (hw : litId.isWeak = false) {op : Op} (hc : op.Callable litId)
    (hs : KeepsSign litId b op) :
    (step litId b op).1 = (specStep litId m op).1 ∧ Rel litId (step litId b op).2 (specStep litId m op).2 := by
  cases op with
  | set key value => exact step_set h hw key value hs
  | delete key => exact step_delete h key
  | clear => exact step_clear h
  | get key => exact ⟨step_get h hw hc key, h⟩
  | has key => exact ⟨step_has h hw key, h⟩
  | size => exact ⟨by simp only [step, specStep, ecmaOpContainerSize, h.size], h⟩

theorem run_rel (hw : litId.isWeak = false) (ops : List Op) :
    ∀ (b : Buffer) (m : Table EcmaValue EcmaValue), Rel litId b m → (∀ op ∈ ops, op.Callable litId) →
      RunKeepsSign litId b ops →
      (run litId b ops).1 = (specRun litId m ops).1 ∧ Rel litId (run litId b ops).2 (specRun litId m ops).2 := by
  induction ops with
  | nil => intro b m h _ _; exact ⟨rfl, h⟩
  | cons op ops ih =>
    intro b m h hc hs
    obtain ⟨hres, hrel⟩ := step_rel h hw (hc op List.mem_cons_self) hs.1
    obtain ⟨hress, hrels⟩ := ih _ _ hrel (fun o ho => hc o (List.mem_cons_of_mem op ho)) hs.2
    exact ⟨by simp only [run, specRun, hres, hress], hrels⟩

theorem runKeepsSign_initial {pre ops : List Op} (hp : pre <+: ops) :
    ∀ (b : Buffer), RunKeepsSign litId b ops → RunKeepsSign litId b pre := by
  obtain ⟨post, rfl⟩ := hp
  induction pre with
  | nil => intro b _; trivial
  | cons op pre ih => intro b h; exact ⟨h.1, ih _ h.2⟩

/-- An update with `-0` stores `+0`, which is not the entry of the association list. -/
theorem not_agrees_of_not_keepsSign (h : Rel litId b m) (hw : litId.isWeak = false) {op : Op}
    (hs : ¬ KeepsSign litId b op) : ¬ Agrees litId b m [op] := by
  cases op with
  | set key value =>
    simp only [KeepsSign, not_forall, Bool.not_eq_false] at hs
    obtain ⟨hm, hsome, hneg⟩ := hs
    rcases h.find key.2 with ⟨hf, -⟩ | ⟨l, k, v, r, hf, hitems, hsize, hentries, hk, hkeys⟩
    · rw [hf] at hsome; cases hsome
    · have hstored := (rel_update hm hitems hsize hentries hk hkeys (w :=
        ecmaOpContainerSetNormalizeZero value)).visited
      intro hagree
      have hvis := hagree.2
      simp only [run, specRun, step, specStep, set_some hw hf] at hvis
      rw [hstored, Table.entries_set_of_split hentries, Table.entries_set_of_split hentries] at hvis
      have hval := (List.cons.inj (List.append_cancel_left hvis)).1
      simp only [entryValue, hm, if_true, Prod.mk.injEq, true_and] at hval
      exact normalizeZero_of_negativeZero hneg hval
  | _ => exact absurd trivial hs

theorem keepsSign_of_agrees (hw : litId.isWeak = false) (ops : List Op) :
    ∀ (b : Buffer) (m : Table EcmaValue EcmaValue), Rel litId b m → (∀ op ∈ ops, op.Callable litId) →
      (∀ pre, pre <+: ops → Agrees litId b m pre) → RunKeepsSign litId b ops := by
  induction ops with
  | nil => intro b m _ _ _; trivial
  | cons op ops ih =>
    intro b m h hc hagree
    have hs : KeepsSign litId b op := by
      by_contra hs
      exact not_agrees_of_not_keepsSign h hw hs (hagree [op] ⟨ops, rfl⟩)
    obtain ⟨-, hrel⟩ := step_rel h hw (hc op List.mem_cons_self) hs
    refine ⟨hs, ih _ _ hrel (fun o ho => hc o (List.mem_cons_of_mem op ho)) fun pre hpre => ?_⟩
    have hcons := hagree (op :: pre) (List.cons_prefix_cons.mpr ⟨rfl, hpre⟩)
    exact ⟨(List.cons.inj hcons.1).2, hcons.2⟩

/-- A Map or a Set refines the insertion-ordered association list on just the runs in which no key
of a map is set again to `-0`. -/
theorem container_refines_iff (litId : ContainerId) (hw : litId.isWeak = false) (ops : List Op)
    (hc : ∀ op ∈ ops, op.Callable litId) :
    Refines litId ops ↔ RunKeepsSign litId ecmaOpCreateInternalBuffer ops := by
  constructor
  · intro h
    exact keepsSign_of_agrees hw ops _ _ rel_create hc h
  · intro h pre hpre
    obtain ⟨hres, hrel⟩ := run_rel hw pre _ _ rel_create (fun op hop => hc op (hpre.subset hop))
      (runKeepsSign_initial hpre _ h)
    exact ⟨hres, hrel.visited⟩

/-- `-0`. -/
def negativeZero : Language := ⟨.float (.finite true 0), by decide⟩

/-- A Map in which `1` is set to `-0`, deleted, and set to `-0` again. -/
theorem container_refines_readded :
    Refines .map [.set ⟨.integer 1, by decide⟩ negativeZero, .delete ⟨.integer 1, by decide⟩,
      .set ⟨.integer 1, by decide⟩ negativeZero] :=
  (container_refines_iff .map rfl _ (by
    intro op hop
    simp only [List.mem_cons, List.not_mem_nil, or_false] at hop
    rcases hop with rfl | rfl | rfl <;> trivial)).mpr (by
    refine ⟨?_, trivial, ?_, trivial⟩
    · intro _ h; exact absurd h (by decide)
    · intro _ h; exact absurd h (by decide +kernel))

/-- `map.set (1, 0)` and then `map.set (1, -0)`: `get` returns `+0`. -/
theorem container_not_refines :
    (run .map ecmaOpCreateInternalBuffer [.set ⟨.integer 1, by decide⟩ ⟨.integer 0, by decide⟩,
      .set ⟨.integer 1, by decide⟩ negativeZero, .get ⟨.integer 1, by decide⟩]).1 =
      [.this, .this, .value (.integer 0)] ∧
    ¬ Refines .map [.set ⟨.integer 1, by decide⟩ ⟨.integer 0, by decide⟩,
      .set ⟨.integer 1, by decide⟩ negativeZero, .get ⟨.integer 1, by decide⟩] := by
  have hrun : (run .map ecmaOpCreateInternalBuffer [.set ⟨.integer 1, by decide⟩ ⟨.integer 0, by decide⟩,
      .set ⟨.integer 1, by decide⟩ negativeZero, .get ⟨.integer 1, by decide⟩]).1 =
      [.this, .this, .value (.integer 0)] := by decide +kernel
  refine ⟨hrun, fun h => ?_⟩
  have hspec := (h _ (List.prefix_refl _)).1
  rw [hrun] at hspec
  revert hspec
  decide +kernel

end Container
end JJS
