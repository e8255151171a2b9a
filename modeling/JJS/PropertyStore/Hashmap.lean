import JJS.PropertyStore.Basic

/-!
# JJS.PropertyStore.Hashmap

What a property hashmap holds: all the properties of the chain and nothing else, each on the path of its hash before the
first entry that was never used (`HashmapOk`). Every search ends within one round (`search_spec`), and each operation keeps
the hashmap so or asks for a new one.
-/

namespace JJS
namespace PropertyStore

open Tombstone (Cell cell items empties unused Filed StopsAt stepPath)

variable {κ α : Type}

/-! ## Entries as cells -/

/-- An entry with a null pointer was never used, or its property was deleted. -/
def Entry.toCell (entry : Entry) : Cell Position :=
  if entry.pair = 0 then if entry.flag then .deleted else .empty
  else .item ⟨entry.pair, entry.flag⟩

def Hashmap.cells (h : Hashmap) : List (Cell Position) := h.entries.map Entry.toCell

theorem cell_cells (h : Hashmap) (i : Nat) : cell h.cells i = (h.entry i).toCell := by
  rw [cell, Hashmap.cells, Hashmap.entry, List.getD_eq_getElem?_getD, List.getD_eq_getElem?_getD, List.getElem?_map]
  cases h.entries[i]? with
  | none => rfl
  | some entry => rfl

theorem toCell_item_iff {entry : Entry} {position : Position} :
    entry.toCell = .item position ↔ entry.pair ≠ 0 ∧ (⟨entry.pair, entry.flag⟩ : Position) = position := by
  rw [Entry.toCell]
  split
  · rename_i hzero
    split
    · exact iff_of_false (fun h => by cases h) (fun h => h.1 hzero)
    · exact iff_of_false (fun h => by cases h) (fun h => h.1 hzero)
  · rename_i hpair
    rw [Cell.item.injEq]
    exact ⟨fun h => ⟨hpair, h⟩, fun h => h.2⟩

theorem toCell_unused_iff {entry : Entry} : entry.toCell.item?.isNone = true ↔ entry.pair = 0 := by
  rw [Entry.toCell]
  split
  · rename_i hzero
    split
    · exact iff_of_true rfl hzero
    · exact iff_of_true rfl hzero
  · rename_i hpair
    exact iff_of_false Bool.false_ne_true hpair

theorem toCell_empty_iff {entry : Entry} : entry.toCell = .empty ↔ entry.pair = 0 ∧ entry.flag = false := by
  rw [Entry.toCell]
  split
  · rename_i hzero
    split
    · rename_i hflag
      exact iff_of_false (fun h => by cases h) (fun h => by rw [hflag] at h; cases h.2)
    · rename_i hflag
      exact iff_of_true rfl ⟨hzero, Bool.eq_false_iff.mpr hflag⟩
  · rename_i hpair
    exact iff_of_false (fun h => by cases h) (fun h => hpair h.1)

theorem toCell_position {position : Position} (h : position.pair ≠ 0) :
    (⟨position.pair, position.second⟩ : Entry).toCell = .item position :=
  toCell_item_iff.mpr ⟨h, rfl⟩

/-! ## Searches -/

/-- The step that goes with a hash. -/
def hashStep (hash : BitVec 32) : Nat :=
  ecmaPropertyHashmapSteps.getD (hash.toNat &&& (ecmaPropertyHashmapSteps.length - 1)) 0

/-- The entries that a search from a hash visits. -/
def probePath (maxPropertyCount : Nat) (hash : BitVec 32) : Nat → Nat :=
  stepPath maxPropertyCount hash.toNat (hashStep hash)

theorem steps_odd : ∀ i ≤ 7, Nat.Coprime (ecmaPropertyHashmapSteps.getD i 0) 2 := by decide

theorem hashStep_coprime (hash : BitVec 32) (n : Nat) : Nat.Coprime (hashStep hash) (2 ^ n) :=
  (steps_odd _ Nat.and_le_right).pow_right n

/-- A search visits every entry. -/
theorem probePath_surjective {n j : Nat} (hash : BitVec 32) (hj : j < 2 ^ n) : ∃ k < 2 ^ n, probePath (2 ^ n) hash k = j :=
  Tombstone.path_surjective (hashStep_coprime hash n) hash.toNat hj

theorem probePath_lt {n : Nat} (hash : BitVec 32) (k : Nat) : probePath (2 ^ n) hash k < 2 ^ n :=
  Nat.mod_lt _ (Nat.two_pow_pos n)

/-- The loop comes to the first entry of the path that it stops at. -/
theorem searchLoop_spec {h : Hashmap} {n : Nat} (hmax : h.maxPropertyCount = 2 ^ n) {stop : Entry → Bool}
    {hash : BitVec 32} : ∀ fuel k, (∃ i, k ≤ i ∧ i < k + fuel ∧ stop (h.entry (probePath (2 ^ n) hash i)) = true) →
      (∀ i < k, stop (h.entry (probePath (2 ^ n) hash i)) = false) →
      ∃ j, h.searchLoop stop (hashStep hash) fuel (probePath (2 ^ n) hash k) = some j ∧
        StopsAt (probePath (2 ^ n) hash) (fun i => stop (h.entry i)) j := by
  intro fuel
  induction fuel with
  | zero =>
    intro k hexists _
    obtain ⟨i, hge, hlt, _⟩ := hexists
    omega
  | succ fuel ih =>
    intro k hexists hbefore
    rw [Hashmap.searchLoop]
    by_cases hstop : stop (h.entry (probePath (2 ^ n) hash k)) = true
    · rw [if_pos hstop]
      exact ⟨_, rfl, k, rfl, hstop, hbefore⟩
    · have hnext : (probePath (2 ^ n) hash k + hashStep hash) &&& (h.maxPropertyCount - 1) = probePath (2 ^ n) hash (k + 1) := by
        rw [hmax, Nat.and_two_pow_sub_one_eq_mod, probePath, stepPath, Nat.mod_add_mod, stepPath, Nat.add_mul, Nat.one_mul,
          Nat.add_assoc]
      rw [if_neg hstop, hnext]
      refine ih (k + 1) ?_ ?_
      · obtain ⟨i, hge, hlt, hi⟩ := hexists
        refine ⟨i, ?_, by omega, hi⟩
        by_contra hlow
        rw [show i = k by omega] at hi
        exact hstop hi
      · intro i hi
        by_cases hik : i = k
        · rw [hik]
          exact Bool.eq_false_iff.mpr hstop
        · exact hbefore i (by omega)

/-- When some entry is one to stop at, a search ends at the first such entry of its path. -/
theorem search_spec {h : Hashmap} {n : Nat} (hmax : h.maxPropertyCount = 2 ^ n) {stop : Entry → Bool} (hash : BitVec 32)
    (hexists : ∃ j < 2 ^ n, stop (h.entry j) = true) :
    ∃ j < 2 ^ n, h.search hash stop = some j ∧ StopsAt (probePath (2 ^ n) hash) (fun i => stop (h.entry i)) j := by
  obtain ⟨j, hj, hstop⟩ := hexists
  obtain ⟨k, hk, hpath⟩ := probePath_surjective hash hj
  have hstart : hash.toNat &&& (h.maxPropertyCount - 1) = probePath (2 ^ n) hash 0 := by
    rw [hmax, Nat.and_two_pow_sub_one_eq_mod, probePath, stepPath, Nat.zero_mul, Nat.add_zero]
  obtain ⟨j', hj', hstops⟩ := searchLoop_spec hmax (2 ^ n) 0
    ⟨k, Nat.zero_le k, by omega, by rw [hpath]; exact hstop⟩ (fun i hi => absurd hi (Nat.not_lt_zero i))
  refine ⟨j', ?_, ?_, hstops⟩
  · obtain ⟨k', hk', -⟩ := hstops
    rw [← hk']
    exact probePath_lt hash k'
  · rw [Hashmap.search, hstart, ← hashStep, hmax]
    exact hj'

/-! ## The invariant -/

/-- The hashmap of the properties of a chain. -/
structure HashmapOk (strings : HeapStrings κ) (props : List (Position × Property α)) (h : Hashmap) : Prop where
  size : ∃ n, h.maxPropertyCount = 2 ^ (n + 5)
  length : h.entries.length = h.maxPropertyCount
  items : (items h.cells).Perm (props.map Prod.fst)
  null : h.nullCount = empties h.cells
  positive : 0 < h.nullCount
  unused : h.unusedCount = unused h.cells
  filed : ∃ hashes : Position → BitVec 32, (∀ slot ∈ props, hashes slot.1 = nameHash strings slot.2.name) ∧
    Filed (fun position => probePath h.maxPropertyCount (hashes position)) h.cells

variable {strings : HeapStrings κ} {props props' : List (Position × Property α)} {h : Hashmap}

theorem HashmapOk.perm (hok : HashmapOk strings props h) (hperm : props.Perm props') : HashmapOk strings props' h := by
  obtain ⟨hashes, hhashes, hfiled⟩ := hok.filed
  exact ⟨hok.size, hok.length, hok.items.trans (hperm.map Prod.fst), hok.null, hok.positive, hok.unused,
    hashes, fun slot hslot => hhashes slot (hperm.mem_iff.mpr hslot), hfiled⟩

theorem length_cells (h : Hashmap) : h.cells.length = h.entries.length := List.length_map _

/-- A path of another item does not matter. -/
theorem filed_update {cells : List (Cell Position)} {max : Nat} {hashes : Position → BitVec 32} {position : Position}
    {hash : BitVec 32} (hfiled : Filed (fun position => probePath max (hashes position)) cells)
    (hnot : position ∉ items cells) :
    Filed (fun other => probePath max (Function.update hashes position hash other)) cells := by
  intro j other hj
  have hne : other ≠ position := by
    intro heq
    rw [heq] at hj
    exact hnot (Tombstone.mem_items_iff.mpr ⟨j, hj⟩)
  obtain ⟨k, hk, hbefore⟩ := hfiled j other hj
  dsimp only
  rw [Function.update_of_ne hne]
  exact ⟨k, hk, hbefore⟩

/-- The search for an entry to put a property into. -/
theorem search_unused {n : Nat} (hmax : h.maxPropertyCount = 2 ^ n) (hlength : h.entries.length = h.maxPropertyCount)
    (hunused : 0 < Tombstone.unused h.cells) (hash : BitVec 32) :
    ∃ j < h.cells.length, h.search hash (fun entry => entry.pair = 0) = some j ∧ (cell h.cells j).item? = none ∧
      StopsAt (probePath h.maxPropertyCount hash) (fun i => (cell h.cells i).item?.isNone) j := by
  obtain ⟨c, hc, hnone⟩ := List.countP_pos_iff.mp hunused
  obtain ⟨j, hj, hjc⟩ := List.mem_iff_getElem.mp hc
  have hcell : cell h.cells j = c := by
    rw [cell, List.getD_eq_getElem?_getD, List.getElem?_eq_getElem hj, hjc]
    rfl
  rw [length_cells, hlength, hmax] at hj
  have hstop : ∀ i, decide ((h.entry i).pair = 0) = (cell h.cells i).item?.isNone := by
    intro i
    rw [cell_cells, Bool.eq_iff_iff, decide_eq_true_iff]
    exact toCell_unused_iff.symm
  obtain ⟨j', hj', hsearch, hstops⟩ := @search_spec h n hmax (fun entry => entry.pair = 0) hash
    ⟨j, hj, by rw [hstop, hcell]; exact hnone⟩
  simp only [hstop] at hstops
  refine ⟨j', by rw [length_cells, hlength, hmax]; exact hj', hsearch, ?_, by rw [hmax]; exact hstops⟩
  obtain ⟨_, _, hat, _⟩ := hstops
  exact Option.isNone_iff_eq_none.mp hat

/-! ## Creation -/

/-- The doubled number is a power of two of at least the wanted count. -/
theorem doubling_spec {count : Nat} : ∀ fuel n, count ≤ 2 ^ (n + 5) + fuel →
    ∃ n', doubling count fuel (2 ^ (n + 5)) = 2 ^ (n' + 5) ∧ count ≤ 2 ^ (n' + 5) := by
  intro fuel
  induction fuel with
  | zero =>
    intro n hle
    exact ⟨n, rfl, hle⟩
  | succ fuel ih =>
    intro n hle
    rw [doubling]
    split
    · have hdouble : 2 ^ (n + 5) <<< 1 = 2 ^ (n + 1 + 5) := by
        rw [Nat.shiftLeft_eq, Nat.pow_one, ← Nat.pow_succ]
      have hpow : 2 ^ (n + 1 + 5) = 2 ^ (n + 5) * 2 := by
        rw [← Nat.pow_succ]
      have hpos := Nat.two_pow_pos (n + 5)
      rw [hdouble]
      exact ih (n + 1) (by omega)
    · rename_i hge
      exact ⟨n, rfl, Nat.le_of_not_lt hge⟩

/-- A new hashmap with some of the properties in it. -/
structure Filling (strings : HeapStrings κ) (max : Nat) (props : List (Position × Property α)) (h : Hashmap) : Prop where
  max_eq : h.maxPropertyCount = max
  length : h.entries.length = max
  items : (Tombstone.items h.cells).Perm (props.map Prod.fst)
  undeleted : ∀ i, cell h.cells i ≠ .deleted
  empties : empties h.cells + props.length = max
  unused : Tombstone.unused h.cells + props.length = max
  filed : ∃ hashes : Position → BitVec 32, (∀ slot ∈ props, hashes slot.1 = nameHash strings slot.2.name) ∧
    Filed (fun position => probePath max (hashes position)) h.cells

theorem cells_set (h : Hashmap) (i : Nat) (entry : Entry) :
    Hashmap.cells { h with entries := h.entries.set i entry } = h.cells.set i entry.toCell := by
  rw [Hashmap.cells, Hashmap.cells, List.map_set]

/-- An entry is filled with a new property. -/
theorem filed_put {max j : Nat} {hashes : Position → BitVec 32} {cells : List (Cell Position)} {position : Position}
    {hash : BitVec 32} (hfiled : Filed (fun position => probePath max (hashes position)) cells)
    (hnot : position ∉ items cells) (hj : j < cells.length)
    (hstops : StopsAt (probePath max hash) (fun i => (cell cells i).item?.isNone) j) :
    Filed (fun other => probePath max (Function.update hashes position hash other)) (cells.set j (.item position)) := by
  refine Filed.put (filed_update hfiled hnot) hj ?_
  rw [Function.update_self]
  exact hstops

theorem hashes_update {hashes : Position → BitVec 32} {slot : Position × Property α}
    (hhashes : ∀ slot ∈ props, hashes slot.1 = nameHash strings slot.2.name) (hnot : slot.1 ∉ props.map Prod.fst) :
    ∀ other ∈ slot :: props,
      Function.update hashes slot.1 (nameHash strings slot.2.name) other.1 = nameHash strings other.2.name := by
  intro other hother
  cases List.mem_cons.mp hother with
  | inl heq => rw [heq, Function.update_self]
  | inr hmem =>
    have hne : other.1 ≠ slot.1 := by
      intro heq
      rw [← heq] at hnot
      exact hnot (List.mem_map_of_mem hmem)
    rw [Function.update_of_ne hne]
    exact hhashes other hmem

theorem createEntry_spec {n : Nat} (hfilling : Filling strings (2 ^ n) props h) {slot : Position × Property α}
    (hroom : props.length < 2 ^ n) (hpair : slot.1.pair ≠ 0) (hnew : slot.1 ∉ props.map Prod.fst) :
    ∃ h', createEntry strings h slot = some h' ∧ h'.nullCount = h.nullCount ∧ h'.unusedCount = h.unusedCount ∧
      Filling strings (2 ^ n) (slot :: props) h' := by
  obtain ⟨hashes, hhashes, hfiled⟩ := hfilling.filed
  have hmax := hfilling.max_eq
  have hempties := hfilling.empties
  have hunused := hfilling.unused
  obtain ⟨j, hj, hsearch, hnone, hstops⟩ := search_unused hmax (hfilling.length.trans hmax.symm)
    (by omega) (nameHash strings slot.2.name)
  have hcell := toCell_position hpair
  have hempty : cell h.cells j = .empty := by
    cases hc : cell h.cells j with
    | empty => rfl
    | deleted => exact absurd hc (hfilling.undeleted j)
    | item position =>
      rw [hc] at hnone
      cases hnone
  have hnot : slot.1 ∉ items h.cells := fun hin => hnew (hfilling.items.mem_iff.mp hin)
  have hcounts := Tombstone.set_counts hj (.item slot.1)
  rw [hempty] at hcounts
  obtain ⟨-, hcount, hcount'⟩ := hcounts
  simp only [Cell.isEmpty, Cell.item?, Option.isNone_none, Option.isNone_some, if_true, Bool.false_eq_true, if_false] at hcount hcount'
  refine ⟨{ h with entries := h.entries.set j ⟨slot.1.pair, slot.1.second⟩ }, ?_, rfl, rfl, ?_⟩
  · rw [createEntry, hsearch]
    rfl
  · have hcells := cells_set h j ⟨slot.1.pair, slot.1.second⟩
    rw [hcell] at hcells
    refine ⟨hmax, ?_, ?_, ?_, ?_, ?_, Function.update hashes slot.1 (nameHash strings slot.2.name),
      hashes_update hhashes hnew, ?_⟩
    · rw [List.length_set]
      exact hfilling.length
    · rw [hcells]
      exact (Tombstone.items_put hj hnone).trans (hfilling.items.cons slot.1)
    · intro i
      rw [hcells, Tombstone.cell_set hj]
      split
      · exact fun h => by cases h
      · exact hfilling.undeleted i
    · rw [hcells, List.length_cons]
      omega
    · rw [hcells, List.length_cons]
      omega
    · rw [hcells]
      rw [hmax] at hstops
      exact filed_put hfiled hnot hj hstops

theorem createEntries_spec {n : Nat} : ∀ (rest done : List (Position × Property α)) (h : Hashmap),
    Filling strings (2 ^ n) done h → done.length + rest.length < 2 ^ n → (∀ slot ∈ rest, slot.1.pair ≠ 0) →
    (rest.map Prod.fst ++ done.map Prod.fst).Nodup →
    ∃ h', rest.foldlM (createEntry strings) h = some h' ∧ h'.nullCount = h.nullCount ∧ h'.unusedCount = h.unusedCount ∧
      Filling strings (2 ^ n) (rest.reverse ++ done) h' := by
  intro rest
  induction rest with
  | nil => exact fun done h hfilling _ _ _ => ⟨h, rfl, rfl, rfl, hfilling⟩
  | cons slot rest ih =>
    intro done h hfilling hroom hpairs hnodup
    rw [List.length_cons] at hroom
    rw [List.map_cons, List.cons_append, List.nodup_cons, List.mem_append, not_or] at hnodup
    obtain ⟨h1, hcreate, hnull1, hunused1, hfilling1⟩ := createEntry_spec hfilling (by omega)
      (hpairs slot List.mem_cons_self) hnodup.1.2
    have hnodup1 : (rest.map Prod.fst ++ (slot :: done).map Prod.fst).Nodup := by
      rw [List.map_cons]
      refine List.perm_middle.nodup_iff.mpr ?_
      rw [List.nodup_cons, List.mem_append, not_or]
      exact hnodup
    obtain ⟨h2, hfold, hnull2, hunused2, hfilling2⟩ := ih (slot :: done) h1 hfilling1
      (by rw [List.length_cons]; omega) (fun other hother => hpairs other (List.mem_cons_of_mem slot hother)) hnodup1
    refine ⟨h2, ?_, hnull2.trans hnull1, hunused2.trans hunused1, ?_⟩
    · rw [List.foldlM_cons, hcreate]
      exact hfold
    · rw [List.reverse_cons, List.append_assoc]
      exact hfilling2

/-- A new hashmap, when there is one, has all the properties. -/
theorem create_spec {pairs : List (Pair α)} (alloc : Bool) (hpairs : ∀ slot ∈ slots pairs, slot.1.pair ≠ 0)
    (hnodup : ((slots pairs).map Prod.fst).Nodup) :
    ∃ result, ecmaPropertyHashmapCreate strings alloc pairs = some result ∧
      ∀ h, result = some h → HashmapOk strings (slots pairs) h := by
  rw [ecmaPropertyHashmapCreate]
  dsimp only
  by_cases hfew : (slots pairs).length < ecmaPropertyHasmapMinimumSize / 2
  · rw [if_pos hfew]
    exact ⟨none, rfl, fun h hh => by cases hh⟩
  · rw [if_neg hfew]
    cases alloc with
    | false => exact ⟨none, rfl, fun h hh => by cases hh⟩
    | true =>
      rw [if_neg (by decide)]
      obtain ⟨n, hdouble, hcount⟩ := @doubling_spec ((slots pairs).length + (slots pairs).length >>> 1)
        ((slots pairs).length + (slots pairs).length >>> 1) 0 (by omega)
      have hminimum : ecmaPropertyHasmapMinimumSize = 2 ^ (0 + 5) := rfl
      have hlt : (slots pairs).length < 2 ^ (n + 5) := by
        rw [Nat.shiftRight_eq_div_pow] at hcount
        have hmin : ecmaPropertyHasmapMinimumSize / 2 = 16 := rfl
        omega
      rw [hminimum, hdouble]
      have hcells : (List.replicate (2 ^ (n + 5)) (⟨0, false⟩ : Entry)).map Entry.toCell =
          List.replicate (2 ^ (n + 5)) .empty := List.map_replicate
      have hitems : items (List.replicate (2 ^ (n + 5)) (.empty : Cell Position)) = [] := by
        rw [items, List.filterMap_replicate_of_none rfl]
      have hfilling : Filling strings (2 ^ (n + 5)) ([] : List (Position × Property α)) (⟨2 ^ (n + 5), 2 ^ (n + 5) - (slots pairs).length,
          2 ^ (n + 5) - (slots pairs).length, List.replicate (2 ^ (n + 5)) ⟨0, false⟩⟩ : Hashmap) := by
        refine ⟨rfl, List.length_replicate, ?_, ?_, ?_, ?_, fun _ => 0#32, ?_, ?_⟩
        · rw [Hashmap.cells, hcells, hitems]
          exact List.Perm.nil
        · intro i
          rw [Hashmap.cells, hcells, Tombstone.cell_replicate]
          exact fun h => by cases h
        · rw [Hashmap.cells, hcells, empties, List.countP_replicate]
          rfl
        · rw [Hashmap.cells, hcells, Tombstone.unused, List.countP_replicate]
          rfl
        · intro slot hslot
          cases hslot
        · rw [Hashmap.cells, hcells]
          exact Tombstone.filed_replicate _ _
      obtain ⟨h, hfold, hnull, hunused, hfilled⟩ := createEntries_spec (slots pairs) [] _ hfilling
        (by rw [List.length_nil]; omega) hpairs (by rw [List.map_nil, List.append_nil]; exact hnodup)
      rw [hfold]
      refine ⟨some h, rfl, ?_⟩
      intro h' hh
      cases hh
      rw [List.append_nil] at hfilled
      have hlength := @List.length_reverse _ (slots pairs)
      have hempties := hfilled.empties
      have hfree := hfilled.unused
      have hmax := hfilled.max_eq
      refine HashmapOk.perm ⟨⟨n, hmax⟩, hfilled.length.trans hmax.symm, hfilled.items, ?_, ?_, ?_, ?_⟩
        (List.reverse_perm _)
      · rw [hnull]
        dsimp only
        omega
      · rw [hnull]
        dsimp only
        omega
      · rw [hunused]
        dsimp only
        omega
      · rw [hmax]
        exact hfilled.filed

/-! ## Insertion and deletion -/

/-- A hashmap has the inserted property too, or a new one is made from the chain, if any. -/
theorem insert_spec {pairs : List (Pair α)} (alloc : Bool) (hok : HashmapOk strings props h) {position : Position}
    {property : Property α} (hperm : (slots pairs).Perm ((position, property) :: props))
    (hpairs : ∀ slot ∈ slots pairs, slot.1.pair ≠ 0) (hnodup : ((slots pairs).map Prod.fst).Nodup) :
    ∃ result, ecmaPropertyHashmapInsert strings alloc pairs h property.name position = some result ∧
      ∀ h', result = some h' → HashmapOk strings (slots pairs) h' := by
  rw [ecmaPropertyHashmapInsert]
  by_cases hfull : h.nullCount < h.maxPropertyCount >>> 3
  · rw [if_pos hfull]
    exact create_spec alloc hpairs hnodup
  · rw [if_neg hfull]
    obtain ⟨n, hmax⟩ := hok.size
    obtain ⟨hashes, hhashes, hfiled⟩ := hok.filed
    have hnull := hok.null
    have hpositive := hok.positive
    have hunused := hok.unused
    have hpair : position.pair ≠ 0 := hpairs (position, property) (hperm.mem_iff.mpr List.mem_cons_self)
    have hnew : position ∉ props.map Prod.fst := by
      have hnodup' := (hperm.map Prod.fst).nodup_iff.mp hnodup
      rw [List.map_cons, List.nodup_cons] at hnodup'
      exact hnodup'.1
    have hnot : position ∉ items h.cells := fun hin => hnew (hok.items.mem_iff.mp hin)
    have hle : empties h.cells ≤ Tombstone.unused h.cells := by
      refine List.countP_mono_left ?_
      intro c _ hc
      cases c with
      | empty => rfl
      | deleted => rfl
      | item _ => cases hc
    obtain ⟨j, hj, hsearch, hnone, hstops⟩ := search_unused hmax hok.length (by omega) (nameHash strings property.name)
    have hcell := toCell_position hpair
    obtain ⟨-, hcount, hcount'⟩ := Tombstone.set_counts hj (.item position)
    rw [hsearch]
    refine ⟨_, rfl, ?_⟩
    intro h' hh
    cases hh
    refine HashmapOk.perm ?_ hperm.symm
    have hcells : Hashmap.cells (⟨h.maxPropertyCount, if (h.entry j).flag = true then h.nullCount else h.nullCount - 1,
        h.unusedCount - 1, h.entries.set j ⟨position.pair, position.second⟩⟩ : Hashmap) = h.cells.set j (.item position) := by
      rw [← hcell]
      exact cells_set h j _
    have hempty : (cell h.cells j).isEmpty = !(h.entry j).flag := by
      rw [cell_cells] at hnone ⊢
      have hzero := toCell_unused_iff.mp (Option.isNone_iff_eq_none.mpr hnone)
      rw [Entry.toCell, if_pos hzero]
      cases (h.entry j).flag with
      | true => rfl
      | false => rfl
    have hnull' : (if (h.entry j).flag = true then h.nullCount else h.nullCount - 1) = empties (h.cells.set j (.item position)) := by
      rw [hempty] at hcount
      simp only [Cell.isEmpty, Bool.false_eq_true, if_false] at hcount
      split
      · rename_i hflag
        simp only [hflag, Bool.not_true, Bool.false_eq_true, if_false] at hcount
        omega
      · rename_i hflag
        simp only [hflag, Bool.not_false, if_true] at hcount
        omega
    have hpos' : 0 < if (h.entry j).flag = true then h.nullCount else h.nullCount - 1 := by
      rw [hmax, Nat.shiftRight_eq_div_pow] at hfull
      have hpow : 2 ^ (n + 5) = 2 ^ n * 32 := Nat.pow_add 2 n 5
      have hn := Nat.two_pow_pos n
      split
      · omega
      · omega
    have hunused' : h.unusedCount - 1 = Tombstone.unused (h.cells.set j (.item position)) := by
      rw [hnone] at hcount'
      simp only [Cell.item?, Option.isNone_none, Option.isNone_some, if_true, Bool.false_eq_true, if_false] at hcount'
      omega
    refine ⟨⟨n, hmax⟩, ?_, ?_, ?_, hpos', ?_, Function.update hashes position (nameHash strings property.name), ?_, ?_⟩
    · rw [List.length_set]
      exact hok.length
    · rw [hcells]
      exact (Tombstone.items_put hj hnone).trans (hok.items.cons position)
    · rw [hcells]
      exact hnull'
    · rw [hcells]
      exact hunused'
    · exact @hashes_update κ α strings props hashes (position, property) hhashes hnew
    · rw [hcells]
      exact filed_put hfiled hnot hj hstops

/-- A hashmap loses the deleted property, or asks to be made again. -/
theorem delete_spec (hok : HashmapOk strings props h) {position : Position} {property : Property α}
    {rest : List (Position × Property α)} (hperm : props.Perm ((position, property) :: rest)) :
    ∃ h' status, ecmaPropertyHashmapDelete strings h property.name position = some (h', status) ∧
      (status = .recreateHashmap ∨ status = .hasHashmap ∧ HashmapOk strings rest h') := by
  rw [ecmaPropertyHashmapDelete]
  dsimp only
  split
  · exact ⟨_, _, rfl, Or.inl rfl⟩
  · obtain ⟨n, hmax⟩ := hok.size
    obtain ⟨hashes, hhashes, hfiled⟩ := hok.filed
    have hmem : (position, property) ∈ props := hperm.mem_iff.mpr List.mem_cons_self
    have hhash := hhashes _ hmem
    have hin : position ∈ items h.cells := hok.items.mem_iff.mpr (List.mem_map_of_mem hmem)
    obtain ⟨i, hi⟩ := Tombstone.mem_items_iff.mp hin
    have hilt : i < 2 ^ (n + 5) := by
      have hlt := @Tombstone.cell_lt _ h.cells i (by rw [hi]; exact fun h => by cases h)
      rw [length_cells, hok.length, hmax] at hlt
      exact hlt
    have hstop : ∀ k, decide ((h.entry k).pair ≠ 0 ∧ (⟨(h.entry k).pair, (h.entry k).flag⟩ : Position) = position) = true ↔
        cell h.cells k = .item position := by
      intro k
      rw [cell_cells, decide_eq_true_iff]
      exact toCell_item_iff.symm
    obtain ⟨j, hj, hsearch, hstops⟩ := @search_spec { h with unusedCount := h.unusedCount + 1 } (n + 5) hmax
      (fun entry => entry.pair ≠ 0 ∧ (⟨entry.pair, entry.flag⟩ : Position) = position) (nameHash strings property.name)
      ⟨i, hilt, (hstop i).mpr hi⟩
    have hat : cell h.cells j = .item position := by
      obtain ⟨_, _, hat, _⟩ := hstops
      exact (hstop j).mp hat
    have hjlt := @Tombstone.cell_lt _ h.cells j (by rw [hat]; exact fun h => by cases h)
    obtain ⟨-, hcount, hcount'⟩ := Tombstone.set_counts hjlt (.deleted)
    have hcells : Hashmap.cells (⟨h.maxPropertyCount, h.nullCount, h.unusedCount + 1, h.entries.set j ⟨0, true⟩⟩ : Hashmap) =
        h.cells.set j .deleted := cells_set h j ⟨0, true⟩
    rw [hat] at hcount hcount'
    simp only [Cell.isEmpty, Cell.item?, Option.isNone_none, Option.isNone_some, if_true, Bool.false_eq_true, if_false]
      at hcount hcount'
    rw [hsearch]
    have hnull := hok.null
    have hunused := hok.unused
    refine ⟨_, _, rfl, Or.inr ⟨rfl, ⟨n, hmax⟩, ?_, ?_, ?_, hok.positive, ?_, hashes, ?_, ?_⟩⟩
    · dsimp only
      rw [List.length_set]
      exact hok.length
    · rw [hcells]
      exact List.Perm.cons_inv (((Tombstone.items_delete hat).trans hok.items).trans (hperm.map Prod.fst))
    · rw [hcells]
      dsimp only
      omega
    · rw [hcells]
      dsimp only
      omega
    · intro slot hslot
      exact hhashes slot (hperm.mem_iff.mpr (List.mem_cons_of_mem _ hslot))
    · rw [hcells]
      exact Filed.delete hfiled hjlt

end PropertyStore
end JJS
