import JJS.PropertyStore.Chain

/-!
# JJS.PropertyStore.Probing

The hashmaps that creations, insertions and deletions lead to, and the entries that their searches visit. The counts of
such a hashmap are right and there is an entry that was never used, so a search for any name ends before it comes to an
entry again (`reached_probes`).
-/

namespace JJS
namespace PropertyStore

open Tombstone (cell items empties unused stepPath)

variable {κ α : Type} {strings : HeapStrings κ} {pairs : List (Pair α)} {props : List (Position × Property α)} {h : Hashmap}

/-! ## Visited entries -/

/-- The indices that `searchLoop` visits, in order. -/
def Hashmap.visitsLoop (h : Hashmap) (stop : Entry → Bool) (step : Nat) : Nat → Nat → List Nat
  | 0, _ => []
  | fuel + 1, entryIndex =>
    entryIndex ::
      if stop (h.entry entryIndex) then []
      else visitsLoop h stop step fuel ((entryIndex + step) &&& (h.maxPropertyCount - 1))

/-- The indices that a search visits. -/
def Hashmap.visits (h : Hashmap) (hash : BitVec 32) (stop : Entry → Bool) : List Nat :=
  h.visitsLoop stop (hashStep hash) h.maxPropertyCount (hash.toNat &&& (h.maxPropertyCount - 1))

/-- A search ends at the last of the entries that it visits, and visits no entry twice. -/
def Probes (h : Hashmap) (hash : BitVec 32) (stop : Entry → Bool) : Prop :=
  ∃ j, h.search hash stop = some j ∧ (h.visits hash stop).getLast? = some j ∧ (h.visits hash stop).Nodup

/-- The entries that an insertion stops at. -/
def insertStop (entry : Entry) : Bool := entry.pair = 0

/-- The entry that a deletion stops at. -/
def deleteStop (position : Position) (entry : Entry) : Bool :=
  entry.pair ≠ 0 ∧ (⟨entry.pair, entry.flag⟩ : Position) = position

/-- The entries that the search for a name stops at. -/
def findStop [DecidableEq κ] (strings : HeapStrings κ) (pairs : List (Pair α)) (name : Name) (entry : Entry) : Bool :=
  if entry.pair = 0 then !entry.flag
  else (propertyAt pairs ⟨entry.pair, entry.flag⟩).any fun property => sameName strings property.name name

theorem step_next {n : Nat} (hmax : h.maxPropertyCount = 2 ^ n) (hash : BitVec 32) (k : Nat) :
    (probePath (2 ^ n) hash k + hashStep hash) &&& (h.maxPropertyCount - 1) = probePath (2 ^ n) hash (k + 1) := by
  rw [hmax, Nat.and_two_pow_sub_one_eq_mod, probePath, stepPath, Nat.mod_add_mod, stepPath, Nat.add_mul, Nat.one_mul,
    Nat.add_assoc]

/-- The visited entries are a part of the path; the search ends at the last one, if it does. -/
theorem visitsLoop_spec {n : Nat} (hmax : h.maxPropertyCount = 2 ^ n) (stop : Entry → Bool) (hash : BitVec 32) :
    ∀ fuel k, ∃ count ≤ fuel,
      h.visitsLoop stop (hashStep hash) fuel (probePath (2 ^ n) hash k) =
        (List.range' k count).map (probePath (2 ^ n) hash) ∧
      ∀ j, h.searchLoop stop (hashStep hash) fuel (probePath (2 ^ n) hash k) = some j →
        ((List.range' k count).map (probePath (2 ^ n) hash)).getLast? = some j := by
  intro fuel
  induction fuel with
  | zero =>
    intro k
    exact ⟨0, Nat.le_refl 0, rfl, fun j hj => by cases hj⟩
  | succ fuel ih =>
    intro k
    rw [Hashmap.visitsLoop, Hashmap.searchLoop]
    by_cases hstop : stop (h.entry (probePath (2 ^ n) hash k)) = true
    · rw [if_pos hstop, if_pos hstop]
      exact ⟨1, by omega, rfl, fun j hj => by rw [← hj]; rfl⟩
    · rw [if_neg hstop, if_neg hstop, step_next hmax]
      obtain ⟨count, hcount, hvisits, hlast⟩ := ih (k + 1)
      refine ⟨count + 1, by omega, ?_, ?_⟩
      · rw [hvisits, List.range'_succ, List.map_cons]
      · intro j hj
        rw [List.range'_succ, List.map_cons, List.getLast?_cons, hlast j hj]
        rfl

theorem hashStep_odd (hash : BitVec 32) : Odd (hashStep hash) := by
  have hodd : ∀ i ≤ 7, ecmaPropertyHashmapSteps.getD i 0 % 2 = 1 := by decide
  exact Nat.odd_iff.mpr (hodd _ Nat.and_le_right)

/-- The entries of a path within one round are different. -/
theorem probePath_injective {n i k : Nat} (hash : BitVec 32) (hi : i < 2 ^ n) (hk : k < 2 ^ n)
    (heq : probePath (2 ^ n) hash i = probePath (2 ^ n) hash k) : i = k :=
  Tombstone.path_injective (hashStep_coprime hash n) hash.toNat hi hk heq

theorem search_eq {n : Nat} (hmax : h.maxPropertyCount = 2 ^ n) (hash : BitVec 32) (stop : Entry → Bool) :
    h.search hash stop = h.searchLoop stop (hashStep hash) (2 ^ n) (probePath (2 ^ n) hash 0) ∧
      h.visits hash stop = h.visitsLoop stop (hashStep hash) (2 ^ n) (probePath (2 ^ n) hash 0) := by
  have hstart : hash.toNat &&& (h.maxPropertyCount - 1) = probePath (2 ^ n) hash 0 := by
    rw [hmax, Nat.and_two_pow_sub_one_eq_mod, probePath, stepPath, Nat.zero_mul, Nat.add_zero]
  refine ⟨?_, ?_⟩
  · rw [Hashmap.search, hstart, ← hashStep, hmax]
  · rw [Hashmap.visits, hstart, hmax]

/-- When there is an entry to stop at, a search stops before it comes to an entry again. -/
theorem probes_of_exists {n : Nat} (hmax : h.maxPropertyCount = 2 ^ n) {stop : Entry → Bool} (hash : BitVec 32)
    (hexists : ∃ j < 2 ^ n, stop (h.entry j) = true) : Probes h hash stop := by
  obtain ⟨j, -, hsearch, -⟩ := search_spec hmax hash hexists
  obtain ⟨hloop, hvisits⟩ := search_eq hmax hash stop
  obtain ⟨count, hcount, hpath, hlast⟩ := visitsLoop_spec hmax stop hash (2 ^ n) 0
  refine ⟨j, hsearch, ?_, ?_⟩
  · rw [hvisits, hpath]
    exact hlast j (hloop.symm.trans hsearch)
  · rw [hvisits, hpath]
    refine List.Nodup.map_on ?_ List.nodup_range'
    intro i hi k hk heq
    rw [List.mem_range'_1] at hi hk
    exact probePath_injective hash (by omega) (by omega) heq

/-! ## The operations search so -/

theorem insert_search (alloc : Bool) (name : Name) (position : Position) :
    ecmaPropertyHashmapInsert strings alloc pairs h name position =
      if h.nullCount < h.maxPropertyCount >>> 3 then ecmaPropertyHashmapCreate strings alloc pairs
      else (h.search (nameHash strings name) insertStop).bind fun entryIndex =>
        some (some { h with
          nullCount := if (h.entry entryIndex).flag then h.nullCount else h.nullCount - 1
          unusedCount := h.unusedCount - 1
          entries := h.entries.set entryIndex ⟨position.pair, position.second⟩ }) := rfl

theorem delete_search (name : Name) (position : Position) :
    ecmaPropertyHashmapDelete strings h name position =
      if (h.maxPropertyCount * 3) >>> 2 < h.unusedCount + 1 then
        some ({ h with unusedCount := h.unusedCount + 1 }, .recreateHashmap)
      else
        (Hashmap.search { h with unusedCount := h.unusedCount + 1 } (nameHash strings name) (deleteStop position)).bind
          fun entryIndex =>
            some ({ h with unusedCount := h.unusedCount + 1, entries := h.entries.set entryIndex ⟨0, true⟩ }, .hasHashmap) :=
  rfl

theorem find_search [DecidableEq κ] (name : Name) :
    ecmaPropertyHashmapFind strings pairs h name =
      (h.search (nameHash strings name) (findStop strings pairs name)).bind fun entryIndex =>
        some (if (h.entry entryIndex).pair = 0 then none
          else some ⟨(h.entry entryIndex).pair, (h.entry entryIndex).flag⟩) := rfl

/-! ## Hashmaps with the right properties -/

/-- An entry that was never used. -/
def Entry.isNull (entry : Entry) : Bool := entry.pair = 0 && !entry.flag

theorem empties_entries (h : Hashmap) : empties h.cells = h.entries.countP Entry.isNull := by
  rw [empties, Hashmap.cells, List.countP_map]
  refine List.countP_congr fun entry _ => ?_
  obtain ⟨pair, flag⟩ := entry
  by_cases hpair : pair = 0 <;> cases flag <;> simp [Entry.toCell, Entry.isNull, Tombstone.Cell.isEmpty, hpair]

theorem unused_entries (h : Hashmap) : unused h.cells = h.entries.countP insertStop := by
  rw [unused, Hashmap.cells, List.countP_map]
  refine List.countP_congr fun entry _ => ?_
  rw [Function.comp_apply, toCell_unused_iff, insertStop, decide_eq_true_iff]

/-- The entry of a property, on the path of its hash. -/
theorem HashmapOk.placed (hok : HashmapOk strings props h) {position : Position} {property : Property α}
    (hin : (position, property) ∈ props) :
    ∃ k, h.entry (probePath h.maxPropertyCount (nameHash strings property.name) k) = ⟨position.pair, position.second⟩ ∧
      position.pair ≠ 0 ∧
      ∀ i < k, (h.entry (probePath h.maxPropertyCount (nameHash strings property.name) i)).isNull = false := by
  obtain ⟨hashes, hhashes, hfiled⟩ := hok.filed
  obtain ⟨j, hj⟩ := Tombstone.mem_items_iff.mp (hok.items.mem_iff.mpr (List.mem_map_of_mem hin))
  obtain ⟨k, hk, hbefore⟩ := hfiled j position hj
  have hhash : hashes position = nameHash strings property.name := hhashes _ hin
  dsimp only at hj hk hbefore
  rw [hhash] at hk hbefore
  rw [cell_cells] at hj
  obtain ⟨hpair, hposition⟩ := toCell_item_iff.mp hj
  refine ⟨k, ?_, ?_, ?_⟩
  · rw [hk, ← hposition]
  · rw [← hposition]
    exact hpair
  · intro i hi
    have hcell := hbefore i hi
    rw [cell_cells, Ne, toCell_empty_iff] at hcell
    simpa [Entry.isNull] using hcell

/-- There is an entry that was never used. -/
theorem HashmapOk.exists_null (hok : HashmapOk strings props h) :
    ∃ j < h.maxPropertyCount, (h.entry j).isNull = true := by
  have hpositive := hok.positive
  rw [hok.null, empties_entries] at hpositive
  obtain ⟨entry, hentry, hnull⟩ := List.countP_pos_iff.mp hpositive
  obtain ⟨j, hj, hget⟩ := List.mem_iff_getElem.mp hentry
  refine ⟨j, by rw [← hok.length]; exact hj, ?_⟩
  rw [Hashmap.entry, List.getD_eq_getElem?_getD, List.getElem?_eq_getElem hj, Option.getD_some, hget]
  exact hnull

theorem isNull_iff (entry : Entry) : entry.isNull = true ↔ entry.pair = 0 ∧ entry.flag = false := by
  simp [Entry.isNull]

/-- The search for the entry of a new property. -/
theorem HashmapOk.insert_probes (hok : HashmapOk strings props h) (hash : BitVec 32) : Probes h hash insertStop := by
  obtain ⟨n, hmax⟩ := hok.size
  obtain ⟨j, hj, hnull⟩ := hok.exists_null
  refine probes_of_exists hmax hash ⟨j, by rw [← hmax]; exact hj, ?_⟩
  rw [insertStop, decide_eq_true_iff]
  exact ((isNull_iff _).mp hnull).1

/-- The search for a name, which there may be no property of. -/
theorem HashmapOk.find_probes [DecidableEq κ] (hok : HashmapOk strings props h) (pairs : List (Pair α)) (name : Name) :
    Probes h (nameHash strings name) (findStop strings pairs name) := by
  obtain ⟨n, hmax⟩ := hok.size
  obtain ⟨j, hj, hnull⟩ := hok.exists_null
  refine probes_of_exists hmax _ ⟨j, by rw [← hmax]; exact hj, ?_⟩
  obtain ⟨hpair, hflag⟩ := (isNull_iff _).mp hnull
  rw [findStop, if_pos hpair, hflag]
  rfl

/-- The search for a property that is deleted. It does not stop at entries that were never used, but comes to the one of
the property. -/
theorem HashmapOk.delete_probes (hok : HashmapOk strings props h) {position : Position} {property : Property α}
    (hin : (position, property) ∈ props) :
    Probes { h with unusedCount := h.unusedCount + 1 } (nameHash strings property.name) (deleteStop position) := by
  obtain ⟨n, hmax⟩ := hok.size
  obtain ⟨k, hentry, hpair, -⟩ := hok.placed hin
  refine @probes_of_exists { h with unusedCount := h.unusedCount + 1 } (n + 5) hmax _ _
    ⟨_, probePath_lt (nameHash strings property.name) k, ?_⟩
  show deleteStop position (h.entry (probePath (2 ^ (n + 5)) (nameHash strings property.name) k)) = true
  rw [← hmax, hentry, deleteStop, decide_eq_true_iff]
  exact ⟨hpair, rfl⟩

/-! ## Runs -/

/-- A chain of different pairs. -/
structure Linked (pairs : List (Pair α)) : Prop where
  nonzero : 0 ∉ pairs.map Pair.cp
  distinct : (pairs.map Pair.cp).Nodup

theorem Linked.pair_ne (hlinked : Linked pairs) : ∀ slot ∈ slots pairs, slot.1.pair ≠ 0 := by
  intro slot hslot hzero
  have hin := mem_positions (List.mem_map_of_mem hslot)
  rw [hzero] at hin
  exact hlinked.nonzero hin

/-- The chains and their hashmaps, after creations, insertions and deletions. A hashmap that shall be recreated is made from
the chain without the deleted property, and blocks are given or refused. -/
inductive Reached (strings : HeapStrings κ) : List (Pair α) → Hashmap → Prop where
  | create {pairs : List (Pair α)} {h : Hashmap} (alloc : Bool) (hlinked : Linked pairs)
      (hcreate : ecmaPropertyHashmapCreate strings alloc pairs = some (some h)) : Reached strings pairs h
  | insert {pairs pairs' : List (Pair α)} {h h' : Hashmap} {position : Position} {property : Property α} (alloc : Bool)
      (hreached : Reached strings pairs h) (hlinked : Linked pairs')
      (hperm : (slots pairs').Perm ((position, property) :: slots pairs))
      (hinsert : ecmaPropertyHashmapInsert strings alloc pairs' h property.name position = some (some h')) :
      Reached strings pairs' h'
  | delete {pairs pairs' : List (Pair α)} {h h' : Hashmap} {position : Position} {property : Property α}
      (hreached : Reached strings pairs h) (hlinked : Linked pairs')
      (hperm : (slots pairs).Perm ((position, property) :: slots pairs'))
      (hdelete : ecmaPropertyHashmapDelete strings h property.name position = some (h', .hasHashmap)) :
      Reached strings pairs' h'
  | recreate {pairs pairs' : List (Pair α)} {h h' h'' : Hashmap} {position : Position} {property : Property α} (alloc : Bool)
      (hreached : Reached strings pairs h) (hlinked : Linked pairs')
      (hperm : (slots pairs).Perm ((position, property) :: slots pairs'))
      (hdelete : ecmaPropertyHashmapDelete strings h property.name position = some (h', .recreateHashmap))
      (hcreate : ecmaPropertyHashmapCreate strings alloc pairs' = some (some h'')) : Reached strings pairs' h''

theorem Reached.linked (hreached : Reached strings pairs h) : Linked pairs := by
  cases hreached with
  | create _ hlinked _ => exact hlinked
  | insert _ _ hlinked _ _ => exact hlinked
  | delete _ hlinked _ _ => exact hlinked
  | recreate _ _ hlinked _ _ _ => exact hlinked

/-- A hashmap that is made from a chain has its properties. -/
theorem Linked.created (hlinked : Linked pairs) {alloc : Bool}
    (hcreate : ecmaPropertyHashmapCreate strings alloc pairs = some (some h)) : HashmapOk strings (slots pairs) h := by
  obtain ⟨result, hresult, hok⟩ := @create_spec κ α strings pairs alloc hlinked.pair_ne (slots_nodup hlinked.distinct)
  rw [hcreate] at hresult
  cases hresult
  exact hok h rfl

theorem Reached.ok (hreached : Reached strings pairs h) : HashmapOk strings (slots pairs) h := by
  induction hreached with
  | create alloc hlinked hcreate => exact hlinked.created hcreate
  | insert alloc hreached hlinked hperm hinsert ih =>
    obtain ⟨result, hresult, hok⟩ := insert_spec alloc ih hperm hlinked.pair_ne (slots_nodup hlinked.distinct)
    rw [hinsert] at hresult
    cases hresult
    exact hok _ rfl
  | delete hreached hlinked hperm hdelete ih =>
    obtain ⟨h', status, hresult, hstatus⟩ := delete_spec ih hperm
    rw [hdelete] at hresult
    cases hresult
    cases hstatus with
    | inl hrecreate => cases hrecreate
    | inr hhas => exact hhas.2
  | recreate alloc hreached hlinked hperm hdelete hcreate ih => exact hlinked.created hcreate

/-- The counts of a hashmap are those of its entries, its properties lie on their paths, and every search in it visits
an entry at most once. -/
theorem reached_probes [DecidableEq κ] (hreached : Reached strings pairs h) :
    h.nullCount = h.entries.countP Entry.isNull ∧ 0 < h.nullCount ∧
      h.unusedCount = h.entries.countP (fun entry => entry.pair = 0) ∧
      (∀ slot ∈ slots pairs, Odd (hashStep (nameHash strings slot.2.name)) ∧
        ∃ k, h.entry (probePath h.maxPropertyCount (nameHash strings slot.2.name) k) = ⟨slot.1.pair, slot.1.second⟩ ∧
          slot.1.pair ≠ 0 ∧
          ∀ i < k, (h.entry (probePath h.maxPropertyCount (nameHash strings slot.2.name) i)).isNull = false) ∧
      (∀ name, Probes h (nameHash strings name) (findStop strings pairs name)) ∧
      (∀ name, Probes h (nameHash strings name) insertStop) ∧
      ∀ slot ∈ slots pairs, Probes { h with unusedCount := h.unusedCount + 1 } (nameHash strings slot.2.name)
        (deleteStop slot.1) := by
  have hok := hreached.ok
  refine ⟨?_, hok.positive, ?_, ?_, fun name => hok.find_probes pairs name, fun name => hok.insert_probes _,
    fun slot hslot => hok.delete_probes hslot⟩
  · rw [hok.null, empties_entries]
  · rw [hok.unused, unused_entries]
    rfl
  · exact fun slot hslot => ⟨hashStep_odd _, hok.placed hslot⟩

/-- Strings that no name refers to. -/
def noStrings : HeapStrings Nat where
  get _ := .other 0
  hash _ := 0#32

/-- Properties with the names 0 to 15. -/
def sixteen : List (Pair Unit) := (List.range 8).map fun i =>
  ⟨i + 1, some ⟨.direct .uint (2 * i), (), true, false⟩, some ⟨.direct .uint (2 * i + 1), (), true, false⟩⟩

/-- They are hashed to the first half of the hashmap. -/
def sixteenHashmap : Hashmap where
  maxPropertyCount := 32
  nullCount := 16
  unusedCount := 16
  entries := (List.range 32).map fun i => if i < 16 then ⟨i / 2 + 1, i % 2 = 1⟩ else ⟨0, false⟩

theorem reached_sixteen : Reached noStrings sixteen sixteenHashmap :=
  .create true ⟨by decide, by decide⟩ (by rfl)

theorem reached_probes_sixteen :
    sixteenHashmap.nullCount = sixteenHashmap.entries.countP Entry.isNull ∧
      ∀ name, Probes sixteenHashmap (nameHash noStrings name) (findStop noStrings sixteen name) :=
  ⟨(reached_probes reached_sixteen).1, (reached_probes reached_sixteen).2.2.2.2.1⟩

end PropertyStore
end JJS
