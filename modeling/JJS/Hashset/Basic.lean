import JJS.Lib.Probe
import Mathlib.Data.List.ReduceOption

/-!
# JJS.Hashset.Basic

The string hashset of `ecma-helpers-collection.c`, which holds the string literal pool: open addressing
with a probe distance that grows at each step, and a table that grows by half when it is 70 percent full.

The loops of the source are fuelled here: `none` means that the fuel ran out, so a loop ends when some
fuel is enough. The 64-bit counters of a loop would wrap after `2 ^ 64` rounds; they are natural
numbers here. The fact about one loop is `exists_probeLoop_iff`.
-/

namespace JJS
namespace Hashset

open Probe

abbrev Byte := BitVec 8

/-- `ecma_string_t` in the pool: characters, or a number in the descriptor
(`ECMA_STRING_CONTAINER_UINT32_IN_DESC`). -/
inductive EcmaString where
  | uint32 (number : BitVec 32)
  | chars (utf8 : List Byte)
deriving DecidableEq

/-- `lit_utf8_string_hash_combine`. -/
def litUtf8StringHashCombine (hashBasis : BitVec 32) (utf8 : List Byte) : BitVec 32 :=
  utf8.foldl (fun hash b => (hash ^^^ b.setWidth 32) * 16777619#32) hashBasis

/-- `lit_utf8_string_calc_hash`. -/
def litUtf8StringCalcHash (utf8 : List Byte) : BitVec 32 := litUtf8StringHashCombine 2166136261#32 utf8

/-- `ecma_string_hash`: the number in the descriptor shares its place with the hash. -/
def ecmaStringHash : EcmaString → BitVec 32
  | .uint32 number => number
  | .chars utf8 => litUtf8StringCalcHash utf8

/-- `ecma_string_get_chars`. -/
def ecmaStringGetChars : EcmaString → List Byte
  | .uint32 number => (Nat.toDigits 10 number.toNat).map fun c => BitVec.ofNat 8 c.toNat
  | .chars utf8 => utf8

/-- `ecma_hashset_t`; `none` is `ECMA_VALUE_EMPTY`. -/
structure Table where
  buckets : List (Option EcmaString)
  size : Nat

namespace Table

def capacity (t : Table) : Nat := t.buckets.length

def bucket (t : Table) (i : Nat) : Option EcmaString := t.buckets.getD i none

/-- The strings in the order of their buckets. -/
def items (t : Table) : List EcmaString := t.buckets.reduceOption

end Table

/-- `UINT32_MAX`. -/
def uint32Max : Nat := 2 ^ 32 - 1

/-- `ECMA_STRING_LITERAL_POOL_SIZE`. -/
def ecmaStringLiteralPoolSize : Nat := 1024

/-- `ECMA_HASHSET_PROBE_INDEX`. -/
def ecmaHashsetProbeIndex (hash : BitVec 32) (capacity : Nat) : Nat := 1 + hash.toNat % (capacity - 1)

/-- `ecma_hashset_init`, when the buckets can be allocated. -/
def ecmaHashsetInit (capacity : Nat) : Table := ⟨List.replicate capacity none, 0⟩

/-- `ecma_hashset_need_to_grow`: the products are of 32 bits. -/
def ecmaHashsetNeedToGrow (t : Table) : Bool :=
  if t.capacity = uint32Max then false
  else decide (t.capacity * 70 % 2 ^ 32 ≤ (t.size + 1) * 100 % 2 ^ 32)

/-- The loop from bucket `i` on, with the next distance: to the first bucket at which it stops. -/
def probeLoop (t : Table) (stop : Option EcmaString → Bool) : Nat → Nat → Nat → Option Nat
  | 0, _, _ => none
  | fuel + 1, i, probe =>
    if stop (t.bucket i) then some i else probeLoop t stop fuel ((i + probe) % t.capacity) (probe + 1)

/-- The search that `ecma_hashset_insert_internal`, `ecma_hashset_get` and `ecma_hashset_get_raw` begin
with: the home bucket, and then the loop. -/
def search (fuel : Nat) (t : Table) (hash : BitVec 32) (stop : Option EcmaString → Bool) : Option Nat :=
  let home := hash.toNat % t.capacity
  if stop (t.bucket home) then some home
  else
    let probe := ecmaHashsetProbeIndex hash t.capacity
    probeLoop t stop fuel probe probe

/-- `ecma_hashset_insert_internal`. -/
def ecmaHashsetInsertInternal (fuel : Nat) (t : Table) (s : EcmaString) : Option Table :=
  match search fuel t (ecmaStringHash s) Option.isNone with
  | none => none
  | some i => some ⟨t.buckets.set i (some s), t.size + 1⟩

/-- The loop of `ecma_hashset_grow` over the strings of the old table. -/
def insertAll (fuel : Nat) (t : Table) : List EcmaString → Option Table
  | [] => some t
  | s :: rest =>
    match ecmaHashsetInsertInternal fuel t s with
    | none => none
    | some t => insertAll fuel t rest

/-- The capacity after growing. -/
def grownCapacity (t : Table) : Nat := min (t.capacity + t.capacity * 50 % 2 ^ 32 / 100) uint32Max

/-- `ecma_hashset_grow`, when the buckets can be allocated. -/
def ecmaHashsetGrow (fuel : Nat) (t : Table) : Option Table :=
  insertAll fuel (ecmaHashsetInit (grownCapacity t)) t.items

/-- `ecma_hashset_insert`: whether the string was inserted, and the table. `alloc` tells whether the
buckets can be allocated when the table has to grow. -/
def ecmaHashsetInsert (fuel : Nat) (t : Table) (s : EcmaString) (alloc : Bool) : Option (Bool × Table) :=
  if ecmaHashsetNeedToGrow t then
    if !alloc then some (false, t)
    else
      match ecmaHashsetGrow fuel t with
      | none => none
      | some t => (ecmaHashsetInsertInternal fuel t s).map fun t => (true, t)
  else (ecmaHashsetInsertInternal fuel t s).map fun t => (true, t)

/-- The loop of `ecma_hashset_get` stops at an empty bucket and at the string. -/
def stopsAt (s : EcmaString) : Option EcmaString → Bool
  | none => true
  | some item => item == s

/-- `ecma_hashset_get`: the item at the bucket where the search stopped, if there is one. -/
def ecmaHashsetGet (fuel : Nat) (t : Table) (s : EcmaString) : Option (Option EcmaString) :=
  (search fuel t (ecmaStringHash s) (stopsAt s)).map t.bucket

/-- The loop of `ecma_hashset_get_raw` compares characters. -/
def stopsAtChars (key : List Byte) : Option EcmaString → Bool
  | none => true
  | some item => ecmaStringGetChars item == key

/-- `ecma_hashset_get_raw`. -/
def ecmaHashsetGetRaw (fuel : Nat) (t : Table) (key : List Byte) : Option (Option EcmaString) :=
  (search fuel t (litUtf8StringCalcHash key) (stopsAtChars key)).map t.bucket

/-! ## One search -/

variable {t : Table} {stop : Option EcmaString → Bool} {hash : BitVec 32}

theorem probeLoop_spec {fuel : Nat} : ∀ {i probe j : Nat}, i < t.capacity →
    probeLoop t stop fuel i probe = some j → stop (t.bucket j) = true ∧ j < t.capacity := by
  induction fuel with
  | zero => intro i probe j _ h; cases h
  | succ fuel ih =>
    intro i probe j hi h
    rw [probeLoop] at h
    split at h
    · rename_i hstop; cases h; exact ⟨hstop, hi⟩
    · exact ih (Nat.mod_lt _ (by omega)) h

theorem probeLoop_mono {fuel fuel' : Nat} (hle : fuel ≤ fuel') : ∀ {i probe j : Nat},
    probeLoop t stop fuel i probe = some j → probeLoop t stop fuel' i probe = some j := by
  induction fuel generalizing fuel' with
  | zero => intro i probe j h; cases h
  | succ fuel ih =>
    intro i probe j h
    obtain ⟨f, rfl⟩ : ∃ f, fuel' = f + 1 := ⟨fuel' - 1, by omega⟩
    rw [probeLoop] at h ⊢
    split at h
    · rename_i hstop; cases h; rw [if_pos hstop]
    · rename_i hstop; rw [if_neg hstop]; exact ih (by omega) h

/-- The loop ends just when it stops at some bucket that is still to come. -/
theorem exists_probeLoop_iff (t : Table) (stop : Option EcmaString → Bool) (p x : Nat) :
    (∃ fuel, (probeLoop t stop fuel (index t.capacity p x) (p + x)).isSome) ↔
      ∃ y, stop (t.bucket (index t.capacity p (x + y))) = true := by
  constructor
  · intro h
    obtain ⟨fuel, h⟩ := h
    induction fuel generalizing x with
    | zero => cases h
    | succ fuel ih =>
      rw [probeLoop] at h
      split at h
      · rename_i hstop; exact ⟨0, hstop⟩
      · obtain ⟨y, hy⟩ := ih (x + 1) h
        exact ⟨y + 1, by rwa [show x + (y + 1) = x + 1 + y by omega]⟩
  · intro h
    obtain ⟨y, h⟩ := h
    refine ⟨y + 1, ?_⟩
    induction y generalizing x with
    | zero => rw [probeLoop, if_pos (show stop (t.bucket (index t.capacity p x)) = true from h)]; rfl
    | succ y ih =>
      rw [probeLoop]
      split
      · rfl
      · exact ih (x + 1) (by rwa [show x + 1 + y = x + (y + 1) by omega])

/-- The home bucket is a stop, or some bucket on the orbit is. -/
def Reaches (t : Table) (hash : BitVec 32) (stop : Option EcmaString → Bool) : Prop :=
  stop (t.bucket (hash.toNat % t.capacity)) = true ∨
    ∃ j < t.capacity, stop (t.bucket j) = true ∧ OnOrbit t.capacity (ecmaHashsetProbeIndex hash t.capacity) j

theorem probeIndex_bounds (hash : BitVec 32) (hcap : 2 ≤ t.capacity) :
    0 < ecmaHashsetProbeIndex hash t.capacity ∧ ecmaHashsetProbeIndex hash t.capacity < t.capacity := by
  have := Nat.mod_lt hash.toNat (show 0 < t.capacity - 1 by omega)
  unfold ecmaHashsetProbeIndex
  omega

theorem search_spec {fuel i : Nat} (hcap : 2 ≤ t.capacity) (h : search fuel t hash stop = some i) :
    stop (t.bucket i) = true ∧ i < t.capacity := by
  simp only [search] at h
  split at h
  · rename_i hstop; cases h; exact ⟨hstop, Nat.mod_lt _ (by omega)⟩
  · exact probeLoop_spec (probeIndex_bounds hash hcap).2 h

theorem search_mono {fuel fuel' i : Nat} (hle : fuel ≤ fuel') (h : search fuel t hash stop = some i) :
    search fuel' t hash stop = some i := by
  simp only [search] at h ⊢
  split at h
  · rename_i hstop; cases h; rw [if_pos hstop]
  · rename_i hstop; rw [if_neg hstop]; exact probeLoop_mono hle h

/-- A search ends just when there is a stop at home or on the orbit. -/
theorem exists_search_iff (hcap : 2 ≤ t.capacity) :
    (∃ fuel, (search fuel t hash stop).isSome) ↔ Reaches t hash stop := by
  obtain ⟨hp, hlt⟩ := probeIndex_bounds hash hcap
  simp only [search, Reaches]
  by_cases hhome : stop (t.bucket (hash.toNat % t.capacity)) = true
  · simp [hhome]
  · have hloop := exists_probeLoop_iff t stop (ecmaHashsetProbeIndex hash t.capacity) 0
    simp only [index, Nat.mod_eq_of_lt hlt, Nat.add_zero, Nat.zero_add] at hloop
    simp only [hhome, if_false, hloop, false_or, Bool.false_eq_true]
    constructor
    · intro h
      obtain ⟨y, hy⟩ := h
      have hj := index_lt (p := ecmaHashsetProbeIndex hash t.capacity) (show 0 < t.capacity by omega) y
      exact ⟨_, hj, hy, (exists_index_iff (by omega) hp hj).mp ⟨y, rfl⟩⟩
    · intro h
      obtain ⟨j, hj, hstop, horbit⟩ := h
      obtain ⟨y, hy⟩ := (exists_index_iff (by omega) hp hj).mpr horbit
      exact ⟨y, by rwa [hy]⟩

end Hashset
end JJS
