import JJS.FastArray.Append

/-!
# JJS.FastArray.Convert

`ecma_fast_array_convert_to_normal` narrows an index to a compressed pointer and takes it for a direct string. The
conversion keeps the content of an array when every element is at an index that fits one (`FastWith.convert`).
-/

namespace JJS
namespace FastArray

open Strings (directStringMaxImm uint32Max)

variable {κ α : Type}

/-! ## The property list -/

/-- The properties that the conversion makes of the slots below an index. -/
def convertedProperties (cpointer32Bit : Bool) (values : List (Option α)) (n : Nat) : List (Property κ α) :=
  (List.range n).filterMap fun i =>
    (values.getD i none).map fun value => ⟨.uint (i % 2 ^ cpointerBits cpointer32Bit), value, true⟩

/-- The next property goes to the first slot of the last pair. -/
def FirstFree (pairs : List (PropertyPair κ α)) : Prop :=
  ∃ second rest, pairs = ⟨none, second⟩ :: rest

variable {values : List (Option α)} {cpointer32Bit : Bool}

theorem convertedProperties_succ (n : Nat) :
    (convertedProperties cpointer32Bit values (n + 1) : List (Property κ α)) =
      convertedProperties cpointer32Bit values n ++ ((values.getD n none).map fun value =>
        ⟨.uint (n % 2 ^ cpointerBits cpointer32Bit), value, true⟩).toList := by
  rw [convertedProperties, List.range_succ, List.filterMap_append, convertedProperties, List.filterMap_cons,
    List.filterMap_nil]
  cases values.getD n none with
  | none => rfl
  | some value => rfl

/-- The loop puts the properties in front of those that there are, from the last one to the first. -/
theorem properties_convertLoop (n : Nat) (propIndex : Bool) (pairs : List (PropertyPair κ α))
    (hfree : propIndex = false → FirstFree pairs) :
    properties (convertLoop cpointer32Bit values n propIndex pairs) =
      convertedProperties cpointer32Bit values n ++ properties pairs := by
  induction n generalizing propIndex pairs with
  | zero => rfl
  | succ n ih =>
    rw [convertLoop.eq_def, convertedProperties_succ]
    dsimp only
    cases values.getD n none with
    | none =>
      rw [Option.map_none, Option.toList_none, List.append_nil]
      exact ih propIndex pairs hfree
    | some value =>
      rw [Option.map_some, Option.toList_some, List.append_assoc]
      cases propIndex with
      | true =>
        dsimp only
        rw [ih false _ fun _ => ⟨_, _, rfl⟩, properties_cons]
        rfl
      | false =>
        obtain ⟨second, rest, rfl⟩ := hfree rfl
        dsimp only
        rw [ih true _ (fun h => by cases h), properties_cons, properties_cons]
        rfl

/-! ## The properties -/

/-- Every element below the length is at an index that fits a direct string. -/
def DirectBelow (cpointer32Bit : Bool) (values : List (Option α)) (length : Nat) : Prop :=
  ∀ i < length, directStringMaxImm cpointer32Bit < i → values.getD i none = none

variable {length : Nat}

theorem mod_of_direct {i : Nat} (h : i ≤ directStringMaxImm cpointer32Bit) : i % 2 ^ cpointerBits cpointer32Bit = i := by
  refine Nat.mod_eq_of_lt (Nat.lt_of_le_of_lt h ?_)
  cases cpointer32Bit with
  | true => decide
  | false => decide

theorem DirectBelow.le (h : DirectBelow cpointer32Bit values length) {i : Nat} (hi : i < length) {value : α}
    (hvalue : values.getD i none = some value) : i ≤ directStringMaxImm cpointer32Bit := by
  by_contra hbehind
  rw [h i hi (Nat.not_le.mp hbehind)] at hvalue
  cases hvalue

theorem mem_convertedProperties (hdirect : DirectBelow cpointer32Bit values length) {property : Property κ α} :
    property ∈ (convertedProperties cpointer32Bit values length : List (Property κ α)) ↔
      ∃ i < length, i ≤ directStringMaxImm cpointer32Bit ∧ ∃ value, values.getD i none = some value ∧
        property = ⟨.uint i, value, true⟩ := by
  rw [convertedProperties, List.mem_filterMap]
  constructor
  · rintro ⟨i, hi, hproperty⟩
    obtain ⟨value, hvalue, heq⟩ := Option.map_eq_some_iff.mp hproperty
    have hlt := List.mem_range.mp hi
    have hle := hdirect.le hlt hvalue
    exact ⟨i, hlt, hle, value, hvalue, by rw [← heq, mod_of_direct hle]⟩
  · rintro ⟨i, hlt, hle, value, hvalue, heq⟩
    exact ⟨i, List.mem_range.mpr hlt, by rw [hvalue, Option.map_some, heq, mod_of_direct hle]⟩

/-- The names of the properties are different. -/
theorem names_convertedProperties (hdirect : DirectBelow cpointer32Bit values length) :
    ((convertedProperties cpointer32Bit values length : List (Property κ α)).map Property.name).Nodup := by
  induction length with
  | zero => exact List.nodup_nil
  | succ n ih =>
    have hbelow : DirectBelow cpointer32Bit values n := fun i hi => hdirect i (Nat.lt_succ_of_lt hi)
    rw [convertedProperties_succ, List.map_append]
    cases hvalue : values.getD n none with
    | none =>
      rw [Option.map_none, Option.toList_none, List.map_nil, List.append_nil]
      exact ih hbelow
    | some value =>
      have hle := hdirect.le (Nat.lt_succ_self n) hvalue
      rw [Option.map_some, Option.toList_some, List.map_cons, List.map_nil, List.nodup_append]
      refine ⟨ih hbelow, List.nodup_singleton _, ?_⟩
      intro name hname name' hname' heq
      obtain ⟨property, hin, rfl⟩ := List.mem_map.mp hname
      obtain ⟨i, hi, _, _, _, rfl⟩ := (mem_convertedProperties hbelow).mp hin
      rw [List.mem_singleton, mod_of_direct hle] at hname'
      rw [hname'] at heq
      exact Nat.ne_of_lt hi (Name.uint.inj heq)

theorem toName_number (n : BitVec 32) (h : n.toNat ≤ directStringMaxImm cpointer32Bit) :
    (Key.number n : Key κ).toName cpointer32Bit = .uint n.toNat := if_pos h

variable [DecidableEq κ]

/-- A key is found among the properties if and only if there is an element at its index. -/
theorem lookup_convertedProperties (hdirect : DirectBelow cpointer32Bit values length) (hshort : length < 2 ^ 30)
    (hspare : ∀ i, length ≤ i → values.getD i none = none) (key : Key κ) :
    (lookup (key.toName cpointer32Bit) (convertedProperties cpointer32Bit values length)).map
        (fun property => (property.value, property.configurable)) = elements values key := by
  have hnodup := @names_convertedProperties κ α values cpointer32Bit length hdirect
  -- what is found is an element at the index of the key
  have hfound : ∀ {property : Property κ α},
      lookup (key.toName cpointer32Bit) (convertedProperties cpointer32Bit values length) = some property →
        some (property.value, property.configurable) = elements values key := by
    intro property hlookup
    obtain ⟨hin, hname⟩ := lookup_some hlookup
    obtain ⟨i, hi, hle, value, hvalue, rfl⟩ := (mem_convertedProperties hdirect).mp hin
    have hlt : i < 2 ^ 32 := by omega
    have hnumber : (BitVec.ofNat 32 i).toNat = i := by rw [BitVec.toNat_ofNat, Nat.mod_eq_of_lt hlt]
    have hkey : key = .number (BitVec.ofNat 32 i) := by
      refine @toName_inj κ cpointer32Bit _ _ ?_
      rw [toName_number _ (by rw [hnumber]; exact hle), hnumber]
      exact hname.symm
    have hindex : ecmaStringGetArrayIndex key = i := by rw [hkey]; exact hnumber
    have hisIndex : key.IsIndex := by
      rw [Key.IsIndex, hindex, uint32Max]
      omega
    rw [elements, if_pos hisIndex, hindex, hvalue]
    rfl
  cases hlookup : lookup (key.toName cpointer32Bit) (convertedProperties cpointer32Bit values length) with
  | some property => exact hfound hlookup
  | none =>
    rw [Option.map_none, elements]
    split
    · rename_i hindex
      cases hvalue : values.getD (ecmaStringGetArrayIndex key) none with
      | none => rfl
      | some value =>
        exfalso
        have hlt : ecmaStringGetArrayIndex key < length := by
          by_contra hbehind
          rw [hspare _ (Nat.not_lt.mp hbehind)] at hvalue
          cases hvalue
        have hle := hdirect.le hlt hvalue
        cases key with
        | other name => exact hindex rfl
        | number n =>
          refine lookup_eq_none_iff.mp hlookup ?_
          rw [toName_number n hle]
          exact List.mem_map_of_mem
            ((mem_convertedProperties hdirect).mpr ⟨n.toNat, hlt, hle, value, hvalue, rfl⟩)
    · rfl

/-! ## The conversion -/

variable {array : ArrayObject κ α}

omit [DecidableEq κ] in
/-- The loop starts at the last index. -/
theorem firstIndex_eq (hpos : length ≠ 0) (hshort : length < 2 ^ 30) :
    ((BitVec.ofNat 32 length - 1#32).toInt + 1).toNat = length := by
  have hsub : BitVec.ofNat 32 length - 1#32 = BitVec.ofNat 32 (length - 1) := by
    apply BitVec.eq_of_toNat_eq
    rw [BitVec.toNat_sub, BitVec.toNat_ofNat, BitVec.toNat_ofNat, BitVec.toNat_ofNat]
    omega
  rw [hsub, BitVec.toInt_eq_toNat_of_lt (by rw [BitVec.toNat_ofNat]; omega), BitVec.toNat_ofNat]
  omega

omit [DecidableEq κ] in
theorem FastWith.length_eq (h : FastWith length values array) : array.length = length := by rw [h.array_eq]; rfl

omit [DecidableEq κ] in
theorem FastWith.list_eq (h : FastWith length values array) :
    array.propertyList = if length = 0 then .null else .values values := by
  rw [h.array_eq]
  rfl

omit [DecidableEq κ] in
/-- The array after the conversion. -/
theorem FastWith.convert_eq (h : FastWith length values array) :
    ∃ pairs, ecmaFastArrayConvertToNormal cpointer32Bit array =
        ⟨array.length, array.lengthPropAndHoleCount &&& ~~~fastArrayFlag, .ofPairs pairs⟩ ∧
      properties pairs = convertedProperties cpointer32Bit values length := by
  rw [ecmaFastArrayConvertToNormal, h.list_eq]
  by_cases hzero : length = 0
  · rw [if_pos hzero]
    exact ⟨[], rfl, by rw [hzero]; rfl⟩
  · rw [if_neg hzero]
    dsimp only
    rw [h.length_eq, firstIndex_eq hzero h.buffer.short, PropertyList.getValues]
    refine ⟨_, rfl, ?_⟩
    rw [properties_convertLoop _ _ _ (fun hfalse => by cases hfalse)]
    exact List.append_nil _

/-- The conversion of an array whose elements are all at indices that fit direct strings: different names, each the one
that its key is given, and the same content. -/
theorem FastWith.convert (h : FastWith length values array) (hdirect : DirectBelow cpointer32Bit values length) :
    NormalOk cpointer32Bit (ecmaFastArrayConvertToNormal cpointer32Bit array) ∧
      content cpointer32Bit (ecmaFastArrayConvertToNormal cpointer32Bit array) = content cpointer32Bit array := by
  have hshort := h.buffer.short
  have hlength := h.length_eq
  obtain ⟨pairs, hconvert, hproperties⟩ := @FastWith.convert_eq κ α values cpointer32Bit length array h
  have hlist : (ecmaFastArrayConvertToNormal cpointer32Bit array).list = convertedProperties cpointer32Bit values length := by
    rw [hconvert, ArrayObject.list, getPairs_ofPairs, hproperties]
  have hnormal := isFast_convert cpointer32Bit array
  constructor
  · refine ⟨hnormal, ⟨pairs, by rw [hconvert]⟩, ?_, ?_, ?_⟩
    · rw [hconvert, uint32Max]
      show array.length ≤ 2 ^ 32 - 1
      omega
    · rw [hlist]
      exact names_convertedProperties hdirect
    · intro property hin
      rw [hlist] at hin
      obtain ⟨i, hi, hle, value, -, rfl⟩ := (mem_convertedProperties hdirect).mp hin
      have hnumber : (BitVec.ofNat 32 i).toNat = i := by
        rw [BitVec.toNat_ofNat]
        omega
      refine ⟨.number (BitVec.ofNat 32 i), ?_, fun _ => ?_⟩
      · rw [toName_number _ (by rw [hnumber]; exact hle), hnumber]
      · rw [hconvert]
        show (BitVec.ofNat 32 i).toNat < array.length
        rw [hnumber, hlength]
        exact hi
  · refine Content.ext (by rw [hconvert]; rfl) ?_ ?_
    · show (ecmaFastArrayConvertToNormal cpointer32Bit array).isWritable = array.isWritable
      rw [hconvert, isWritable_clearFast]
    · funext key
      have hcontent := @content_fastArray κ α values length _ cpointer32Bit h.buffer
      rw [← h.array_eq] at hcontent
      rw [get_normal _ hnormal, hlist, hcontent]
      exact lookup_convertedProperties hdirect hshort h.buffer.spare key

end FastArray
end JJS
