import JJS.Lib.OpenAddress
import JJS.Strings.Equal

/-!
# JJS.Literals.Pool

The pool of the string literals: `ecma_find_or_create_literal_string` of `ecma-literal-storage.c` over the string
hashset of `ecma-helpers-collection.c`, which holds string values here, with the addresses of their descriptors.

A loop of the source is fuelled, as in `JJS.Hashset.Basic`: `none` means that the fuel ran out. The address is the
one that the allocation of a descriptor gives.
-/

namespace JJS
namespace Literals

open Utf8 Strings
open Hashset (litUtf8StringCalcHash ecmaHashsetProbeIndex ecmaStringLiteralPoolSize)

/-- `ecma_hashset_t`; `none` is `ECMA_VALUE_EMPTY`. -/
structure Pool where
  buckets : List (Option EcmaString)
  size : Nat
deriving DecidableEq

namespace Pool

def capacity (pool : Pool) : Nat := pool.buckets.length

def bucket (pool : Pool) (i : Nat) : Option EcmaString := OpenAddress.bucket pool.buckets i

/-- The values in the order of their buckets. -/
def items (pool : Pool) : List EcmaString := pool.buckets.reduceOption

end Pool

/-- `ecma_hashset_init`, when the buckets can be allocated. -/
def ecmaHashsetInit (capacity : Nat) : Pool := ⟨List.replicate capacity none, 0⟩

/-- `ecma_hashset_need_to_grow`: the products are of 32 bits. -/
def ecmaHashsetNeedToGrow (pool : Pool) : Bool :=
  if pool.capacity = uint32Max then false
  else decide (pool.capacity * 70 % 2 ^ 32 ≤ (pool.size + 1) * 100 % 2 ^ 32)

/-- The loop from bucket `i` on, with the next distance. -/
def probeLoop (pool : Pool) (stop : Option EcmaString → Bool) : Nat → Nat → Nat → Option Nat
  | 0, _, _ => none
  | fuel + 1, i, probe =>
    if stop (pool.bucket i) then some i else probeLoop pool stop fuel ((i + probe) % pool.capacity) (probe + 1)

/-- What `ecma_hashset_insert_internal`, `ecma_hashset_get` and `ecma_hashset_get_raw` begin with: the home bucket,
and then the loop. -/
def search (fuel : Nat) (pool : Pool) (hash : BitVec 32) (stop : Option EcmaString → Bool) : Option Nat :=
  let home := hash.toNat % pool.capacity
  if stop (pool.bucket home) then some home
  else
    let probe := ecmaHashsetProbeIndex hash pool.capacity
    probeLoop pool stop fuel probe probe

/-- `ecma_hashset_insert_internal`. -/
def ecmaHashsetInsertInternal (fuel : Nat) (pool : Pool) (value : EcmaString) : Option Pool :=
  match search fuel pool (ecmaStringHash value) Option.isNone with
  | none => none
  | some i => some ⟨pool.buckets.set i (some value), pool.size + 1⟩

/-- The loop of `ecma_hashset_grow` over the values of the old buckets. -/
def insertAll (fuel : Nat) (copy : Pool) : List EcmaString → Option Pool
  | [] => some copy
  | value :: rest =>
    match ecmaHashsetInsertInternal fuel copy value with
    | none => none
    | some copy => insertAll fuel copy rest

/-- The capacity after growing. -/
def grownCapacity (pool : Pool) : Nat := min (pool.capacity + pool.capacity * 50 % 2 ^ 32 / 100) uint32Max

/-- `ecma_hashset_grow`, when the buckets can be allocated. -/
def ecmaHashsetGrow (fuel : Nat) (pool : Pool) : Option Pool :=
  insertAll fuel (ecmaHashsetInit (grownCapacity pool)) pool.items

/-- `ecma_hashset_insert`: whether the value was inserted, and the pool. `alloc` tells whether the buckets can be
allocated when the pool has to grow. -/
def ecmaHashsetInsert (fuel : Nat) (pool : Pool) (value : EcmaString) (alloc : Bool) : Option (Bool × Pool) :=
  if ecmaHashsetNeedToGrow pool then
    if !alloc then some (false, pool)
    else
      match ecmaHashsetGrow fuel pool with
      | none => none
      | some pool => (ecmaHashsetInsertInternal fuel pool value).map fun pool => (true, pool)
  else (ecmaHashsetInsertInternal fuel pool value).map fun pool => (true, pool)

/-- The loop of `ecma_hashset_get` stops at an empty bucket and at an equal string. -/
def stopsAt (value : EcmaString) : Option EcmaString → Bool
  | none => true
  | some item => ecmaCompareEcmaStrings item value

/-- `ecma_hashset_get`; `none` as the result is `ECMA_VALUE_NOT_FOUND`. -/
def ecmaHashsetGet (fuel : Nat) (pool : Pool) (value : EcmaString) : Option (Option EcmaString) :=
  (search fuel pool (ecmaStringHash value) (stopsAt value)).map pool.bucket

/-- No flag is asked for. -/
def noFlags : Flags := { isAscii := false, rehashNeeded := false, isUint32 := false, mustBeFreed := false }

variable (context : Context)

/-- The loop of `ecma_hashset_get_raw` compares characters. The flags that one item sets are kept for the next, but
none of them matters for the characters. -/
def stopsAtChars (key : List Byte) : Option EcmaString → Bool
  | none => true
  | some item =>
    let found := ecmaStringGetChars context noFlags true item
    found.size == key.length && key.head? == found.chars.head? && memcmp key found.chars == .eq

/-- `ecma_hashset_get_raw`. -/
def ecmaHashsetGetRaw (fuel : Nat) (pool : Pool) (key : List Byte) : Option (Option EcmaString) :=
  (search fuel pool (litUtf8StringCalcHash key) (stopsAtChars context key)).map pool.bucket

/-- `ecma_new_ecma_string_from_ascii`. -/
def ecmaNewEcmaStringFromAscii (address : Nat) (s : List Byte) : EcmaString :=
  match ecmaFindSpecialString context address s with
  | some special => special
  | none => .heap address (ecmaNewEcmaStringFromUtf8Buffer s.length s.length (litUtf8StringCalcHash s) s)

/-- `ecma_is_value_direct_string`. -/
def isDirectString : EcmaString → Bool
  | .direct _ _ => true
  | .heap _ _ => false

/-- The end of `ecma_find_or_create_literal_string`, from `put` on; `none` as the value is `ECMA_VALUE_EMPTY`. -/
def put (fuel : Nat) (pool : Pool) (value : EcmaString) (alloc : Bool) : Option (Option EcmaString × Pool) :=
  match ecmaHashsetInsert fuel pool value alloc with
  | none => none
  | some (inserted, pool) => some (if inserted then some value else none, pool)

/-- `ecma_find_or_create_literal_string`. -/
def ecmaFindOrCreateLiteralString (fuel : Nat) (pool : Pool) (address : Nat) (s : List Byte) (isAscii alloc : Bool) :
    Option (Option EcmaString × Pool) :=
  match ecmaFindSpecialString context address s with
  | some string =>
    if isDirectString string then some (some string, pool)
    else
      match ecmaHashsetGet fuel pool string with
      | none => none
      | some (some existing) => some (some existing, pool)
      | some none => put fuel pool string alloc
  | none =>
    match ecmaHashsetGetRaw context fuel pool s with
    | none => none
    | some (some value) => some (some value, pool)
    | some none =>
      let string :=
        if isAscii then ecmaNewEcmaStringFromAscii context address s else ecmaNewEcmaStringFromUtf8 context address s
      put fuel pool string alloc

/-- `ecma_save_literals_append_value`, for a string: the list of the literals that a snapshot saves. -/
def ecmaSaveLiteralsAppendValue (litPool : List EcmaString) (value : EcmaString) : List EcmaString :=
  if litPool.any fun item => samePointer item value then litPool else litPool ++ [value]

/-! ## One search -/

section Search

variable {pool : Pool} {hash : BitVec 32} {stop : Option EcmaString → Bool}

/-- The buckets that a search visits in a table with this capacity. -/
def path (capacity : Nat) (hash : BitVec 32) : Nat → Nat
  | 0 => hash.toNat % capacity
  | k + 1 => Probe.index capacity (ecmaHashsetProbeIndex hash capacity) k

theorem probeIndex_lt (hash : BitVec 32) {capacity : Nat} (hcap : 2 ≤ capacity) :
    ecmaHashsetProbeIndex hash capacity < capacity := by
  have hmod := Nat.mod_lt hash.toNat (show 0 < capacity - 1 by omega)
  rw [ecmaHashsetProbeIndex]
  omega

theorem path_lt (hash : BitVec 32) {capacity : Nat} (hcap : 2 ≤ capacity) (k : Nat) : path capacity hash k < capacity := by
  cases k with
  | zero => exact Nat.mod_lt _ (by omega)
  | succ k => exact Probe.index_lt (by omega) k

/-- The loop goes on along the path. -/
theorem probeLoop_stops {fuel : Nat} : ∀ {k j : Nat},
    (∀ i ≤ k, stop (pool.bucket (path pool.capacity hash i)) = false) →
    probeLoop pool stop fuel (path pool.capacity hash (k + 1)) (ecmaHashsetProbeIndex hash pool.capacity + k) = some j →
    OpenAddress.StopsAt pool.buckets (path pool.capacity hash) stop j := by
  induction fuel with
  | zero => intro k j _ h; cases h
  | succ fuel ih =>
    intro k j hbefore h
    rw [probeLoop] at h
    split at h
    · rename_i hstop
      cases h
      exact ⟨k + 1, rfl, hstop, fun i hi => hbefore i (Nat.le_of_lt_succ hi)⟩
    · rename_i hstop
      refine ih (k := k + 1) ?_ h
      intro i hi
      cases Nat.lt_or_eq_of_le hi with
      | inl hlt => exact hbefore i (Nat.le_of_lt_succ hlt)
      | inr heq => rw [heq]; exact Bool.eq_false_iff.mpr hstop

theorem search_stops {fuel j : Nat} (hcap : 2 ≤ pool.capacity) (h : search fuel pool hash stop = some j) :
    OpenAddress.StopsAt pool.buckets (path pool.capacity hash) stop j := by
  simp only [search] at h
  split at h
  · rename_i hstop
    cases h
    exact ⟨0, rfl, hstop, fun i hi => absurd hi (Nat.not_lt_zero i)⟩
  · rename_i hstop
    refine @probeLoop_stops _ _ _ fuel 0 _ ?_ ?_
    · intro i hi
      rw [Nat.le_zero.mp hi]
      exact Bool.eq_false_iff.mpr hstop
    · rw [path, Probe.index, Nat.mod_eq_of_lt (probeIndex_lt hash hcap), Nat.add_zero]
      exact h

end Search

/-! ## Insertion and growing -/

section Insert

variable {pool pool' : Pool} {value : EcmaString} {fuel : Nat}

/-- A pool with at least two buckets, in which every value is where a search for its hash comes to it. -/
structure Placed (pool : Pool) : Prop where
  capacity : 2 ≤ pool.capacity
  filed : OpenAddress.Filed (fun value => path pool.capacity (ecmaStringHash value)) pool.buckets

theorem capacity_init (n : Nat) : (ecmaHashsetInit n).capacity = n := List.length_replicate

theorem placed_init {n : Nat} (hn : 2 ≤ n) : Placed (ecmaHashsetInit n) where
  capacity := by rw [capacity_init]; exact hn
  filed := OpenAddress.filed_replicate _ n

theorem items_init (n : Nat) : (ecmaHashsetInit n).items = [] := List.reduceOption_replicate_none

/-- One insertion keeps the pool in order and adds the value. -/
theorem insertInternal_spec (hplaced : Placed pool) (h : ecmaHashsetInsertInternal fuel pool value = some pool') :
    Placed pool' ∧ pool'.items.Perm (value :: pool.items) := by
  rw [ecmaHashsetInsertInternal] at h
  split at h
  · cases h
  · rename_i j hsearch
    cases h
    have hstops := search_stops hplaced.capacity hsearch
    have hj : j < pool.buckets.length := by
      obtain ⟨k, hk, -, -⟩ := hstops
      rw [← hk]
      exact path_lt _ hplaced.capacity k
    have hnone : OpenAddress.bucket pool.buckets j = none := by
      obtain ⟨-, -, hat, -⟩ := hstops
      exact Option.isNone_iff_eq_none.mp hat
    have hcap : (Pool.mk (pool.buckets.set j (some value)) (pool.size + 1)).capacity = pool.capacity := List.length_set
    refine ⟨⟨?_, ?_⟩, OpenAddress.items_set hj hnone⟩
    · rw [hcap]
      exact hplaced.capacity
    · rw [hcap]
      exact hplaced.filed.set hj hstops

theorem insertAll_spec {values : List EcmaString} : ∀ {pool : Pool}, Placed pool →
    insertAll fuel pool values = some pool' → Placed pool' ∧ pool'.items.Perm (values ++ pool.items) := by
  induction values with
  | nil =>
    intro pool hplaced h
    cases h
    exact ⟨hplaced, List.Perm.refl _⟩
  | cons value rest ih =>
    intro pool hplaced h
    rw [insertAll] at h
    split at h
    · cases h
    · rename_i next hinsert
      obtain ⟨hnext, hperm⟩ := insertInternal_spec hplaced hinsert
      obtain ⟨hlast, hrest⟩ := ih hnext h
      refine ⟨hlast, hrest.trans ((hperm.append_left rest).trans ?_)⟩
      exact List.perm_middle

/-- A pool grows to one with the same values. -/
theorem grow_spec (hplaced : Placed pool) (h : ecmaHashsetGrow fuel pool = some pool') :
    Placed pool' ∧ pool'.items.Perm pool.items := by
  have hcap : 2 ≤ grownCapacity pool := by
    have hold := hplaced.capacity
    rw [grownCapacity, uint32Max]
    omega
  obtain ⟨hnew, hperm⟩ := insertAll_spec (placed_init hcap) h
  rw [items_init, List.append_nil] at hperm
  exact ⟨hnew, hperm⟩

theorem insert_spec (hplaced : Placed pool) {alloc : Bool}
    (h : ecmaHashsetInsert fuel pool value alloc = some (true, pool')) :
    Placed pool' ∧ pool'.items.Perm (value :: pool.items) := by
  rw [ecmaHashsetInsert] at h
  split at h
  · split at h
    · cases h
    · split at h
      · cases h
      · rename_i grown hgrow
        obtain ⟨hplaced, hsame⟩ := grow_spec hplaced hgrow
        obtain ⟨next, hinsert, heq⟩ := Option.map_eq_some_iff.mp h
        cases heq
        obtain ⟨hnext, hperm⟩ := insertInternal_spec hplaced hinsert
        exact ⟨hnext, hperm.trans (hsame.cons value)⟩
  · obtain ⟨next, hinsert, heq⟩ := Option.map_eq_some_iff.mp h
    cases heq
    exact insertInternal_spec hplaced hinsert

/-- A search that stops at the items with a property, which all have the hash, finds the one that there is. -/
theorem search_spec (hplaced : Placed pool) {hash : BitVec 32} {stop : Option EcmaString → Bool} {i : Nat}
    {wanted : EcmaString → Prop} (hstop : ∀ item ∈ pool.items, stop (some item) = true ↔ wanted item)
    (hhash : ∀ item, wanted item → ecmaStringHash item = hash)
    (honly : ∀ item ∈ pool.items, ∀ item' ∈ pool.items, wanted item → wanted item' → item = item')
    (h : search fuel pool hash stop = some i) :
    (∃ item ∈ pool.items, wanted item ∧ pool.bucket i = some item) ∨
      (∀ item ∈ pool.items, ¬ wanted item) ∧ pool.bucket i = none := by
  have hstops := search_stops hplaced.capacity h
  by_cases hexists : ∃ item ∈ pool.items, wanted item
  · obtain ⟨item, hin, hwanted⟩ := hexists
    refine Or.inl ⟨item, hin, hwanted, ?_⟩
    rw [← hhash item hwanted] at hstops
    refine hplaced.filed.found hin ((hstop item hin).mpr hwanted) ?_ hstops
    intro other hother hat
    exact honly other hother item hin ((hstop other hother).mp hat) hwanted
  · have hnone : ∀ item ∈ pool.items, ¬ wanted item := fun item hin hwanted => hexists ⟨item, hin, hwanted⟩
    refine Or.inr ⟨hnone, hstops.absent ?_⟩
    intro item hin
    exact Bool.eq_false_iff.mpr fun hat => hnone item hin ((hstop item hin).mp hat)

end Insert

end Literals
end JJS
