import JJS.Lib.Tombstone
import JJS.Strings.Basic

/-!
# JJS.PropertyStore.Basic

The properties of objects: the chain of property pairs (`ecma-helpers.c`), the property hashmap
(`ecma-property-hashmap.c`), the lookup cache (`ecma-lcache.c`), and the deletion of array items
(`ecma_delete_array_properties`).

A pair is known by its compressed pointer, and a pointer to a property by the pair and which of its two properties it is.
A block for a hashmap can be refused: an operation takes as `alloc` whether it is given. A hashmap has as many entries as
fit in the memory, so its counts do not wrap. A search that visits an entry for a second time does not end; it is `none`,
as is a cache entry that is not where it must be.
-/

namespace JJS
namespace PropertyStore

open Strings (uint32Max)

/-! ## Names -/

/-- A string in the heap: one that has a number in its descriptor, or another content. -/
inductive HeapString (κ : Type) where
  | uint32InDesc (n : BitVec 32)
  | other (content : κ)
deriving DecidableEq

/-- The strings that compressed pointers refer to, and the hashes of their contents. -/
structure HeapStrings (κ : Type) where
  get : Nat → HeapString κ
  hash : κ → BitVec 32

/-- `ECMA_DIRECT_STRING_MAGIC`, `ECMA_DIRECT_STRING_UINT` and `ECMA_DIRECT_STRING_SPECIAL`. -/
inductive DirectType where
  | magic
  | uint
  | special
deriving DecidableEq

/-- A name: `ECMA_DIRECT_STRING_PTR` with a pointer to a string, or a direct string. -/
inductive Name where
  | ptr (cp : Nat)
  | direct (type : DirectType) (value : Nat)
deriving DecidableEq

/-- `names_cp`. -/
def Name.cp : Name → Nat
  | .ptr cp => cp
  | .direct _ value => value

/-- `ECMA_PROPERTY_GET_NAME_TYPE`; `none` is `ECMA_DIRECT_STRING_PTR`. -/
def Name.type : Name → Option DirectType
  | .ptr _ => none
  | .direct type _ => some type

section Names

variable {κ : Type} (strings : HeapStrings κ)

/-- `ecma_string_get_property_name_hash`, and `ecma_string_hash`. -/
def nameHash : Name → BitVec 32
  | .ptr cp =>
    match strings.get cp with
    | .uint32InDesc n => n
    | .other content => strings.hash content
  | .direct _ value => BitVec.ofNat 32 value

/-- The comparison of the name of a property with a string. -/
def sameName [DecidableEq κ] : Name → Name → Bool
  | .ptr cp, .ptr cp' => strings.get cp = strings.get cp'
  | .direct type value, .direct type' value' => type = type' ∧ value = value'
  | .ptr _, .direct _ _ => false
  | .direct _ _, .ptr _ => false

/-- `ecma_string_get_property_index`. -/
def ecmaStringGetPropertyIndex : Name → Nat
  | .direct .uint value => value
  | .ptr cp =>
    match strings.get cp with
    | .uint32InDesc n => n.toNat
    | .other _ => uint32Max
  | .direct _ _ => uint32Max

end Names

/-! ## Objects -/

/-- A property that is not deleted: the flags `ECMA_PROPERTY_FLAG_CONFIGURABLE` and `ECMA_PROPERTY_FLAG_LCACHED`, and
what else it has. -/
structure Property (α : Type) where
  name : Name
  value : α
  configurable : Bool
  lcached : Bool

/-- `ecma_property_pair_t`, with its compressed pointer; `none` is `ECMA_PROPERTY_TYPE_DELETED`. -/
structure Pair (α : Type) where
  cp : Nat
  first : Option (Property α)
  second : Option (Property α)

/-- A pointer to a property. -/
structure Position where
  pair : Nat
  second : Bool
deriving DecidableEq

/-- An entry of a hashmap: a compressed pointer, where zero is `ECMA_NULL_POINTER`, and a flag. -/
structure Entry where
  pair : Nat
  flag : Bool
deriving DecidableEq

/-- `ecma_property_hashmap_t`. -/
structure Hashmap where
  maxPropertyCount : Nat
  nullCount : Nat
  unusedCount : Nat
  entries : List Entry

/-- The property list of an object: the hashmap, when it has one, and the pairs. -/
structure Object (α : Type) where
  hashmap : Option Hashmap
  pairs : List (Pair α)

variable {κ α : Type}

/-- The properties of a pair, with the pointers to them. -/
def Pair.slots (pair : Pair α) : List (Position × Property α) :=
  (pair.first.map fun property => (⟨pair.cp, false⟩, property)).toList ++
    (pair.second.map fun property => (⟨pair.cp, true⟩, property)).toList

/-- The properties of a chain, in order. -/
def slots (pairs : List (Pair α)) : List (Position × Property α) := pairs.flatMap Pair.slots

/-- What a pointer refers to. -/
def propertyAt (pairs : List (Pair α)) (position : Position) : Option (Property α) :=
  (pairs.find? fun pair => pair.cp = position.pair).bind fun pair => if position.second then pair.second else pair.first

/-! ## Hashmaps -/

/-- `ecma_property_hashmap_steps`. -/
def ecmaPropertyHashmapSteps : List Nat := [3, 5, 7, 11, 13, 17, 19, 23]

/-- `ECMA_PROPERTY_HASMAP_MINIMUM_SIZE`. -/
def ecmaPropertyHasmapMinimumSize : Nat := 32

namespace Hashmap

def entry (h : Hashmap) (i : Nat) : Entry := h.entries.getD i ⟨0, false⟩

/-- The loop that looks for an entry. -/
def searchLoop (h : Hashmap) (stop : Entry → Bool) (step : Nat) : Nat → Nat → Option Nat
  | 0, _ => none
  | fuel + 1, entryIndex =>
    if stop (h.entry entryIndex) then some entryIndex
    else searchLoop h stop step fuel ((entryIndex + step) &&& (h.maxPropertyCount - 1))

/-- The search for an entry from a hash on; there are no more entries than steps. -/
def search (h : Hashmap) (hash : BitVec 32) (stop : Entry → Bool) : Option Nat :=
  let entryIndex := hash.toNat
  let step := ecmaPropertyHashmapSteps.getD (entryIndex &&& (ecmaPropertyHashmapSteps.length - 1)) 0
  h.searchLoop stop step h.maxPropertyCount (entryIndex &&& (h.maxPropertyCount - 1))

end Hashmap

/-- `ecma_property_hashmap_delete_status`. -/
inductive DeleteStatus where
  | noHashmap
  | hasHashmap
  | recreateHashmap
deriving DecidableEq

/-- The loop that doubles `max_property_count`. -/
def doubling (count : Nat) : Nat → Nat → Nat
  | 0, maxPropertyCount => maxPropertyCount
  | fuel + 1, maxPropertyCount =>
    if maxPropertyCount < count then doubling count fuel (maxPropertyCount <<< 1) else maxPropertyCount

section Hashmaps

variable (strings : HeapStrings κ)

/-- A property is put into an entry of a new hashmap. -/
def createEntry (h : Hashmap) (slot : Position × Property α) : Option Hashmap := do
  let entryIndex ← h.search (nameHash strings slot.2.name) fun entry => entry.pair = 0
  some { h with entries := h.entries.set entryIndex ⟨slot.1.pair, slot.1.second⟩ }

/-- `ecma_property_hashmap_create`. -/
def ecmaPropertyHashmapCreate (alloc : Bool) (pairs : List (Pair α)) : Option (Option Hashmap) :=
  let namedPropertyCount := (slots pairs).length
  if namedPropertyCount < ecmaPropertyHasmapMinimumSize / 2 then some none
  else
    let count := namedPropertyCount + (namedPropertyCount >>> 1)
    let maxPropertyCount := doubling count count ecmaPropertyHasmapMinimumSize
    if !alloc then some none
    else do
      let h ← (slots pairs).foldlM (createEntry strings) {
        maxPropertyCount := maxPropertyCount
        nullCount := maxPropertyCount - namedPropertyCount
        unusedCount := maxPropertyCount - namedPropertyCount
        entries := List.replicate maxPropertyCount ⟨0, false⟩ }
      some (some h)

/-- `ecma_property_hashmap_insert`; the property is in the chain already. -/
def ecmaPropertyHashmapInsert (alloc : Bool) (pairs : List (Pair α)) (h : Hashmap) (name : Name) (position : Position) :
    Option (Option Hashmap) :=
  if h.nullCount < h.maxPropertyCount >>> 3 then ecmaPropertyHashmapCreate strings alloc pairs
  else do
    let entryIndex ← h.search (nameHash strings name) fun entry => entry.pair = 0
    some (some { h with
      nullCount := if (h.entry entryIndex).flag then h.nullCount else h.nullCount - 1
      unusedCount := h.unusedCount - 1
      entries := h.entries.set entryIndex ⟨position.pair, position.second⟩ })

/-- `ecma_property_hashmap_delete`. -/
def ecmaPropertyHashmapDelete (h : Hashmap) (name : Name) (position : Position) : Option (Hashmap × DeleteStatus) :=
  let h := { h with unusedCount := h.unusedCount + 1 }
  if (h.maxPropertyCount * 3) >>> 2 < h.unusedCount then some (h, .recreateHashmap)
  else do
    let entryIndex ← h.search (nameHash strings name) fun entry =>
      entry.pair ≠ 0 ∧ (⟨entry.pair, entry.flag⟩ : Position) = position
    some ({ h with entries := h.entries.set entryIndex ⟨0, true⟩ }, .hasHashmap)

/-- `ecma_property_hashmap_find`. -/
def ecmaPropertyHashmapFind [DecidableEq κ] (pairs : List (Pair α)) (h : Hashmap) (name : Name) :
    Option (Option Position) := do
  let entryIndex ← h.search (nameHash strings name) fun entry =>
    if entry.pair = 0 then !entry.flag
    else (propertyAt pairs ⟨entry.pair, entry.flag⟩).any fun property => sameName strings property.name name
  let entry := h.entry entryIndex
  some (if entry.pair = 0 then none else some ⟨entry.pair, entry.flag⟩)

end Hashmaps

/-! ## Lookup cache -/

/-- `ecma_lcache_hash_entry_t` with an id that is not zero: the object and the name it is made of, and the property. -/
structure CacheEntry where
  object : Nat
  name : Nat
  property : Position
deriving DecidableEq

/-- A row of `ECMA_LCACHE_HASH_ROW_LENGTH` entries; `none` has id zero. -/
structure Row where
  first : Option CacheEntry
  second : Option CacheEntry

/-- `lcache`: its rows. -/
abbrev Lcache : Type := Nat → Row

/-- The objects at compressed pointers, and the lookup cache. -/
structure Store (α : Type) where
  objects : Nat → Object α
  lcache : Lcache

/-- `ecma_lcache_row_index`; there are `ECMA_LCACHE_HASH_ROWS_COUNT` rows, and the bits of the alignment are left out
when a compressed pointer has 32 bits. -/
def ecmaLcacheRowIndex (cpointer32Bit : Bool) (object name : Nat) : Nat :=
  let shift := if cpointer32Bit then 6 else 0
  ((name ^^^ object) &&& ((128 - 1) <<< shift)) >>> shift

def setLcachedSlot (position : Position) (isLcached : Bool) (pair : Pair α) : Pair α :=
  if pair.cp = position.pair then
    let set := Option.map fun property : Property α => { property with lcached := isLcached }
    if position.second then { pair with second := set pair.second } else { pair with first := set pair.first }
  else pair

/-- `ecma_set_property_lcached`, for the property that a pointer refers to. -/
def ecmaSetPropertyLcached (position : Position) (isLcached : Bool) (objects : Nat → Object α) : Nat → Object α :=
  fun cp => { objects cp with pairs := (objects cp).pairs.map (setLcachedSlot position isLcached) }

section Lcache

variable (cpointer32Bit : Bool)

/-- `ecma_lcache_insert`. -/
def ecmaLcacheInsert (store : Store α) (object name : Nat) (position : Position) : Store α :=
  let rowIndex := ecmaLcacheRowIndex cpointer32Bit object name
  let entry := some ⟨object, name, position⟩
  match store.lcache rowIndex with
  | ⟨none, second⟩ =>
    ⟨ecmaSetPropertyLcached position true store.objects, Function.update store.lcache rowIndex ⟨entry, second⟩⟩
  | ⟨some first, none⟩ =>
    ⟨ecmaSetPropertyLcached position true store.objects, Function.update store.lcache rowIndex ⟨some first, entry⟩⟩
  | ⟨some first, some last⟩ =>
    -- the last entry is invalidated, and the other one is moved to its place
    ⟨ecmaSetPropertyLcached position true (ecmaSetPropertyLcached last.property false store.objects),
      Function.update store.lcache rowIndex ⟨entry, some first⟩⟩

/-- An entry has the id of the object and the name, and a property with a name of this type. -/
def entryIs (store : Store α) (object : Nat) (name : Name) (entry : CacheEntry) : Bool :=
  entry.object = object ∧ entry.name = name.cp ∧
    (propertyAt (store.objects object).pairs entry.property).any fun property => property.name.type = name.type

/-- `ecma_lcache_lookup`. -/
def ecmaLcacheLookup (store : Store α) (object : Nat) (name : Name) : Option Position :=
  let row := store.lcache (ecmaLcacheRowIndex cpointer32Bit object name.cp)
  match row.first.filter (entryIs store object name) with
  | some entry => some entry.property
  | none => (row.second.filter (entryIs store object name)).map CacheEntry.property

/-- `ecma_lcache_invalidate`. The flag of the property is cleared too, but here the property is deleted next. -/
def ecmaLcacheInvalidate (lcache : Lcache) (object name : Nat) (position : Position) : Option Lcache :=
  let rowIndex := ecmaLcacheRowIndex cpointer32Bit object name
  let row := lcache rowIndex
  if row.first.any fun entry => entry.property = position then
    some (Function.update lcache rowIndex ⟨none, row.second⟩)
  else if row.second.any fun entry => entry.property = position then
    some (Function.update lcache rowIndex ⟨row.first, none⟩)
  else none

/-- What `ecma_gc_free_property` does to the cache. -/
def ecmaGcFreeProperty (lcache : Lcache) (object : Nat) (property : Property α) (position : Position) : Option Lcache :=
  if property.lcached then ecmaLcacheInvalidate cpointer32Bit lcache object property.name.cp position else some lcache

end Lcache

/-! ## Operations -/

section Operations

variable (strings : HeapStrings κ) (cpointer32Bit : Bool)

/-- The loop of `ecma_find_named_property` over the chain: the property, and how many pairs were passed. -/
def findLoop [DecidableEq κ] (name : Name) : List (Pair α) → Option Position × Nat
  | [] => (none, 0)
  | pair :: pairs =>
    if pair.first.any fun property => sameName strings property.name name then (some ⟨pair.cp, false⟩, 0)
    else if pair.second.any fun property => sameName strings property.name name then (some ⟨pair.cp, true⟩, 0)
    else
      let (position, steps) := findLoop name pairs
      (position, steps + 1)

/-- A property that was found is put into the cache, under the pointer that it has as its name. -/
def cacheFound (store : Store α) (object : Nat) (position : Position) : Store α :=
  match propertyAt (store.objects object).pairs position with
  | none => store
  | some property =>
    if property.lcached then store else ecmaLcacheInsert cpointer32Bit store object property.name.cp position

/-- `ecma_find_named_property`. -/
def ecmaFindNamedProperty [DecidableEq κ] (alloc : Bool) (store : Store α) (object : Nat) (name : Name) :
    Option (Store α × Option Position) :=
  match ecmaLcacheLookup cpointer32Bit store object name with
  | some position => some (store, some position)
  | none =>
    let pairs := (store.objects object).pairs
    match (store.objects object).hashmap with
    | some h => do
      let found ← ecmaPropertyHashmapFind strings pairs h name
      match found with
      | none => some (store, none)
      | some position => some (cacheFound cpointer32Bit store object position, some position)
    | none => do
      let (found, steps) := findLoop strings name pairs
      let hashmap ←
        if ecmaPropertyHasmapMinimumSize / 2 ≤ steps then ecmaPropertyHashmapCreate strings alloc pairs else some none
      let store := { store with objects := Function.update store.objects object ⟨hashmap, pairs⟩ }
      match found with
      | none => some (store, none)
      | some position => some (cacheFound cpointer32Bit store object position, some position)

/-- `ecma_create_property`, with the compressed pointer of the block for a new pair. -/
def ecmaCreateProperty (alloc : Bool) (store : Store α) (object : Nat) (name : Name) (value : α) (configurable : Bool)
    (newCp : Nat) : Option (Store α) := do
  let property : Property α := ⟨name, value, configurable, false⟩
  let (pairs, position) : List (Pair α) × Position :=
    match (store.objects object).pairs with
    | ⟨cp, none, second⟩ :: rest => (⟨cp, some property, second⟩ :: rest, ⟨cp, false⟩)
    | pairs => (⟨newCp, none, some property⟩ :: pairs, ⟨newCp, true⟩)
  let hashmap ←
    match (store.objects object).hashmap with
    | none => some none
    | some h => ecmaPropertyHashmapInsert strings alloc pairs h name position
  some { store with objects := Function.update store.objects object ⟨hashmap, pairs⟩ }

/-- What a deletion has changed so far, other than the chain. -/
structure Deleting where
  hashmap : Option Hashmap
  status : DeleteStatus
  lcache : Lcache

/-- The status before a deletion. -/
def Deleting.start (store : Store α) (object : Nat) : Deleting where
  hashmap := (store.objects object).hashmap
  status := if (store.objects object).hashmap.isSome then .hasHashmap else .noHashmap
  lcache := store.lcache

/-- A property is taken out of the hashmap, and freed. -/
def deleteSlot (object : Nat) (deleting : Deleting) (property : Property α) (position : Position) : Option Deleting := do
  let (hashmap, status) ←
    match deleting.hashmap, deleting.status with
    | some h, .hasHashmap => do
      let (h, status) ← ecmaPropertyHashmapDelete strings h property.name position
      some (some h, status)
    | hashmap, status => some (hashmap, status)
  let lcache ← ecmaGcFreeProperty cpointer32Bit deleting.lcache object property position
  some ⟨hashmap, status, lcache⟩

/-- The pair stays in the chain while one of its properties is there. -/
def linkPair (pair : Pair α) (pairs : List (Pair α)) : List (Pair α) :=
  if pair.first.isNone && pair.second.isNone then pairs else pair :: pairs

/-- The end of a deletion: the hashmap is made again when it asks for that. -/
def finishDelete (alloc : Bool) (store : Store α) (object : Nat) (deleting : Deleting) (pairs : List (Pair α)) :
    Option (Store α) := do
  let hashmap ←
    if deleting.status = .recreateHashmap then ecmaPropertyHashmapCreate strings alloc pairs else some deleting.hashmap
  some ⟨Function.update store.objects object ⟨hashmap, pairs⟩, deleting.lcache⟩

/-- The loop of `ecma_delete_property`. -/
def deleteLoop (object : Nat) (position : Position) (deleting : Deleting) :
    List (Pair α) → Option (Deleting × List (Pair α))
  | [] => some (deleting, [])
  | pair :: pairs =>
    if pair.cp = position.pair then
      match if position.second then pair.second else pair.first with
      | none => some (deleting, pair :: pairs)
      | some property => do
        let deleting ← deleteSlot strings cpointer32Bit object deleting property position
        let pair := if position.second then { pair with second := none } else { pair with first := none }
        some (deleting, linkPair pair pairs)
    else do
      let (deleting, pairs) ← deleteLoop object position deleting pairs
      some (deleting, pair :: pairs)

/-- `ecma_delete_property`. -/
def ecmaDeleteProperty (alloc : Bool) (store : Store α) (object : Nat) (position : Position) : Option (Store α) := do
  let (deleting, pairs) ←
    deleteLoop strings cpointer32Bit object position (.start store object) (store.objects object).pairs
  finishDelete strings alloc store object deleting pairs

/-- The first walk of `ecma_delete_array_properties`: the new length after a property. -/
def raiseLength (oldLength newLength : Nat) (property : Property α) : Nat :=
  let index := ecmaStringGetPropertyIndex strings property.name
  if !property.configurable ∧ index < oldLength ∧ newLength ≤ index then index + 1 else newLength

/-- The second walk deletes this property. -/
def deletes (oldLength newLength : Nat) (property : Property α) : Bool :=
  let index := ecmaStringGetPropertyIndex strings property.name
  property.configurable ∧ index < oldLength ∧ newLength ≤ index

/-- A property in the second walk: what stays of it. -/
def deleteArraySlot (object oldLength newLength : Nat) (deleting : Deleting) (position : Position)
    (slot : Option (Property α)) : Option (Deleting × Option (Property α)) :=
  match slot with
  | none => some (deleting, none)
  | some property =>
    if deletes strings oldLength newLength property then do
      let deleting ← deleteSlot strings cpointer32Bit object deleting property position
      some (deleting, none)
    else some (deleting, some property)

/-- The second walk of `ecma_delete_array_properties`. -/
def deleteArrayLoop (object oldLength newLength : Nat) (deleting : Deleting) :
    List (Pair α) → Option (Deleting × List (Pair α))
  | [] => some (deleting, [])
  | pair :: pairs => do
    let (deleting, first) ←
      deleteArraySlot strings cpointer32Bit object oldLength newLength deleting ⟨pair.cp, false⟩ pair.first
    let (deleting, second) ←
      deleteArraySlot strings cpointer32Bit object oldLength newLength deleting ⟨pair.cp, true⟩ pair.second
    let (deleting, pairs) ← deleteArrayLoop object oldLength newLength deleting pairs
    some (deleting, linkPair ⟨pair.cp, first, second⟩ pairs)

/-- `ecma_delete_array_properties`, for an array in normal mode. The first walk ends early when the new length is the old
one. -/
def ecmaDeleteArrayProperties (alloc : Bool) (store : Store α) (object newLength oldLength : Nat) :
    Option (Store α × Nat) :=
  let pairs := (store.objects object).pairs
  let newLength := (slots pairs).foldl (fun length slot => raiseLength strings oldLength length slot.2) newLength
  if newLength = oldLength then some (store, newLength)
  else do
    let (deleting, pairs) ←
      deleteArrayLoop strings cpointer32Bit object oldLength newLength (.start store object) pairs
    let store ← finishDelete strings alloc store object deleting pairs
    some (store, newLength)

end Operations

end PropertyStore
end JJS
