import JJS.FastArray.Properties

/-!
# JJS.FastArray.Normal

Arrays in normal mode: the invariant of their property lists, and that the operations do what the content says.
-/

namespace JJS
namespace FastArray

open Strings (directStringMaxImm uint32Max)

variable {κ α : Type}

/-! ## Flags -/

theorem isFast_clearFast (array : ArrayObject κ α) (list : PropertyList κ α) :
    (ArrayObject.mk array.length (array.lengthPropAndHoleCount &&& ~~~fastArrayFlag) list).isFast = false := by
  rw [ArrayObject.isFast, BitVec.and_assoc, show ~~~fastArrayFlag &&& fastArrayFlag = 0#32 by decide, BitVec.and_zero]
  rfl

theorem isWritable_clearFast (array : ArrayObject κ α) (list : PropertyList κ α) :
    (ArrayObject.mk array.length (array.lengthPropAndHoleCount &&& ~~~fastArrayFlag) list).isWritable = array.isWritable := by
  rw [ArrayObject.isWritable, ArrayObject.isWritable, BitVec.and_assoc,
    show ~~~fastArrayFlag &&& propertyFlagWritable = propertyFlagWritable by decide]

theorem isFast_clearWritable (array : ArrayObject κ α) :
    (ArrayObject.mk array.length (array.lengthPropAndHoleCount &&& ~~~propertyFlagWritable) array.propertyList).isFast =
      array.isFast := by
  rw [ArrayObject.isFast, ArrayObject.isFast, BitVec.and_assoc,
    show ~~~propertyFlagWritable &&& fastArrayFlag = fastArrayFlag by decide]

theorem isWritable_clearWritable (array : ArrayObject κ α) :
    (ArrayObject.mk array.length (array.lengthPropAndHoleCount &&& ~~~propertyFlagWritable) array.propertyList).isWritable =
      false := by
  rw [ArrayObject.isWritable, BitVec.and_assoc, show ~~~propertyFlagWritable &&& propertyFlagWritable = 0#32 by decide,
    BitVec.and_zero]
  rfl

/-! ## Names -/

theorem toName_inj {cpointer32Bit : Bool} {key key' : Key κ} (h : key.toName cpointer32Bit = key'.toName cpointer32Bit) :
    key = key' := by
  cases key with
  | number n =>
    cases key' with
    | number n' =>
      have heq : n.toNat = n'.toNat := by
        rw [Key.toName, Key.toName] at h
        split at h
        · split at h
          · exact Name.uint.inj h
          · cases h
        · split at h
          · cases h
          · exact Name.uint32InDesc.inj h
      rw [BitVec.eq_of_toNat_eq heq]
    | other name =>
      rw [Key.toName] at h
      split at h
      · cases h
      · cases h
  | other name =>
    cases key' with
    | number n' =>
      rw [Key.toName, Key.toName] at h
      split at h
      · cases h
      · cases h
    | other name' => rw [Name.other.inj h]

theorem propertyIndex_toName (cpointer32Bit : Bool) (key : Key κ) :
    ecmaStringGetPropertyIndex (key.toName cpointer32Bit) = ecmaStringGetArrayIndex key := by
  cases key with
  | number n =>
    rw [Key.toName]
    split
    · rfl
    · rfl
  | other name => rfl

theorem index_le (key : Key κ) : ecmaStringGetArrayIndex key ≤ uint32Max := by
  cases key with
  | number n =>
    have hlt := n.isLt
    rw [ecmaStringGetArrayIndex, uint32Max]
    omega
  | other name => exact Nat.le_refl _

/-! ## Normal mode -/

section Normal

variable [DecidableEq κ] {cpointer32Bit : Bool} {array : ArrayObject κ α} {key : Key κ} {value : α} {configurable : Bool}

/-- What a program sees of an array. -/
def content (cpointer32Bit : Bool) (array : ArrayObject κ α) : Content κ α where
  length := array.length
  writable := array.isWritable
  get := ecmaOpObjectGetOwnProperty cpointer32Bit array

/-- The properties of an array in normal mode. -/
def ArrayObject.list (array : ArrayObject κ α) : List (Property κ α) := properties array.propertyList.getPairs

/-- An array in normal mode: different names, each the one that its key is given, and no element behind the end. -/
structure NormalOk (cpointer32Bit : Bool) (array : ArrayObject κ α) : Prop where
  normal : array.isFast = false
  pairs : ∃ pairs, array.propertyList = .ofPairs pairs
  short : array.length ≤ uint32Max
  distinct : (array.list.map Property.name).Nodup
  named : ∀ property ∈ array.list, ∃ key : Key κ, property.name = key.toName cpointer32Bit ∧
    (key.IsIndex → ecmaStringGetArrayIndex key < array.length)

theorem get_normal (cpointer32Bit : Bool) (h : array.isFast = false) (key : Key κ) :
    (content cpointer32Bit array).get key =
    (lookup (key.toName cpointer32Bit) array.list).map fun property => (property.value, property.configurable) := by
  show ecmaOpObjectGetOwnProperty cpointer32Bit array key = _
  rw [ecmaOpObjectGetOwnProperty, if_neg (by rw [h]; exact Bool.false_ne_true), find_eq]
  rfl

theorem NormalOk.index_lt (h : NormalOk cpointer32Bit array) (hindex : key.IsIndex) {property : Property κ α}
    (hfound : lookup (key.toName cpointer32Bit) array.list = some property) :
    ecmaStringGetArrayIndex key < array.length := by
  obtain ⟨hin, hname⟩ := lookup_some hfound
  obtain ⟨key', hkey, hlt⟩ := h.named property hin
  rw [hname] at hkey
  rw [← toName_inj hkey] at hlt
  exact hlt hindex

theorem find_list (array : ArrayObject κ α) (name : Name κ) :
    ecmaFindNamedProperty name array.propertyList.getPairs = lookup name array.list := find_eq name _

/-- The array with another length and other properties. -/
def ArrayObject.withPairs (array : ArrayObject κ α) (length : Nat) (pairs : List (PropertyPair κ α)) : ArrayObject κ α :=
  { array with length := length, propertyList := .ofPairs pairs }

omit [DecidableEq κ] in
theorem list_withPairs (array : ArrayObject κ α) (length : Nat) (pairs : List (PropertyPair κ α)) :
    (array.withPairs length pairs).list = properties pairs := by
  rw [ArrayObject.list, ArrayObject.withPairs, getPairs_ofPairs]

theorem content_withPairs (h : array.isFast = false) (length : Nat) (pairs : List (PropertyPair κ α)) :
    content cpointer32Bit (array.withPairs length pairs) = ⟨length, array.isWritable, fun key =>
      (lookup (key.toName cpointer32Bit) (properties pairs)).map fun property => (property.value, property.configurable)⟩ := by
  have hnormal : (array.withPairs length pairs).isFast = false := h
  refine Content.ext rfl rfl ?_
  funext key
  rw [get_normal _ hnormal, list_withPairs]

/-- A new property, with a length that covers it. -/
theorem created (h : NormalOk cpointer32Bit array) (value : α) (configurable : Bool)
    (hnone : lookup (key.toName cpointer32Bit) array.list = none)
    {length : Nat} (hlength : length = ((content cpointer32Bit array).update key (value, configurable)).length) :
    NormalOk cpointer32Bit (array.withPairs length
      (ecmaCreateProperty ⟨key.toName cpointer32Bit, value, configurable⟩ array.propertyList.getPairs)) ∧
      content cpointer32Bit (array.withPairs length
        (ecmaCreateProperty ⟨key.toName cpointer32Bit, value, configurable⟩ array.propertyList.getPairs)) =
        (content cpointer32Bit array).update key (value, configurable) := by
  have hlength : length = if key.IsIndex ∧ array.length ≤ ecmaStringGetArrayIndex key then ecmaStringGetArrayIndex key + 1
      else array.length := hlength
  have hlist : properties (ecmaCreateProperty ⟨key.toName cpointer32Bit, value, configurable⟩ array.propertyList.getPairs) =
      ⟨key.toName cpointer32Bit, value, configurable⟩ :: array.list := properties_create _ _
  have hmax := index_le key
  have hshort := h.short
  have hle : array.length ≤ length := by
    rw [hlength]
    split
    · omega
    · exact Nat.le_refl _
  have hcover : key.IsIndex → ecmaStringGetArrayIndex key < length := by
    intro hindex
    rw [hlength]
    split
    · omega
    · rename_i hnot
      exact Nat.lt_of_not_le fun hge => hnot ⟨hindex, hge⟩
  constructor
  · refine ⟨h.normal, ⟨_, rfl⟩, ?_, ?_, ?_⟩
    · show length ≤ uint32Max
      rw [hlength]
      split
      · rename_i hnew
        have hne : ecmaStringGetArrayIndex key ≠ uint32Max := hnew.1
        omega
      · exact hshort
    · rw [list_withPairs, hlist, List.map_cons, List.nodup_cons]
      exact ⟨lookup_eq_none_iff.mp hnone, h.distinct⟩
    · intro property hin
      rw [list_withPairs, hlist] at hin
      cases List.mem_cons.mp hin with
      | inl heq => exact ⟨key, by rw [heq], hcover⟩
      | inr hold =>
        obtain ⟨other, hname, hlt⟩ := h.named property hold
        exact ⟨other, hname, fun hindex => Nat.lt_of_lt_of_le (hlt hindex) hle⟩
  · rw [content_withPairs h.normal, hlist]
    refine Content.ext hlength rfl ?_
    funext other
    show _ = if other = key then some (value, configurable) else (content cpointer32Bit array).get other
    dsimp only
    rw [get_normal _ h.normal, lookup_cons]
    by_cases heq : other = key
    · rw [if_pos heq, if_pos (by rw [heq])]
      rfl
    · rw [if_neg heq, if_neg (fun hname => heq (toName_inj hname).symm)]

/-- A change of a property that there is. -/
theorem changed (h : NormalOk cpointer32Bit array) {property : Property κ α}
    (hfound : lookup (key.toName cpointer32Bit) array.list = some property) (update : Property κ α → Property κ α)
    (hname : ∀ property, (update property).name = property.name) :
    NormalOk cpointer32Bit (array.withPairs array.length
      (updateProperty (key.toName cpointer32Bit) update array.propertyList.getPairs)) ∧
      content cpointer32Bit (array.withPairs array.length
        (updateProperty (key.toName cpointer32Bit) update array.propertyList.getPairs)) =
        (content cpointer32Bit array).update key ((update property).value, (update property).configurable) := by
  have hnames := names_update hname (key.toName cpointer32Bit) array.propertyList.getPairs
  constructor
  · refine ⟨h.normal, ⟨_, rfl⟩, h.short, ?_, ?_⟩
    · rw [list_withPairs, hnames]
      exact h.distinct
    · intro changed hin
      rw [list_withPairs] at hin
      have hmem := List.mem_map_of_mem (f := Property.name) hin
      rw [hnames] at hmem
      obtain ⟨old, hold, heq⟩ := List.mem_map.mp hmem
      rw [← heq]
      exact h.named old hold
  · rw [content_withPairs h.normal]
    refine Content.ext ?_ rfl ?_
    · show array.length = if key.IsIndex ∧ array.length ≤ ecmaStringGetArrayIndex key then _ else array.length
      rw [if_neg]
      intro hnew
      exact Nat.not_lt.mpr hnew.2 (h.index_lt hnew.1 hfound)
    · funext other
      show _ = if other = key then some ((update property).value, (update property).configurable)
        else (content cpointer32Bit array).get other
      dsimp only
      rw [lookup_update hname, get_normal _ h.normal]
      by_cases heq : other = key
      · have hlist : lookup (key.toName cpointer32Bit) (properties array.propertyList.getPairs) = some property := hfound
        rw [if_pos heq, heq, hlist, Option.map_some, Option.map_some, updated, if_pos (lookup_some hfound).2]
      · rw [if_neg heq, map_updated_of_ne (fun hname => heq (toName_inj hname))]
        rfl

/-- The array after an operation is in normal mode, and it and the completion are what the content says. -/
structure NormalStep (cpointer32Bit : Bool) (result : ArrayObject κ α × Completion) (expected : Content κ α × Completion) :
    Prop where
  ok : NormalOk cpointer32Bit result.1
  content_eq : content cpointer32Bit result.1 = expected.1
  completion_eq : result.2 = expected.2

theorem normal_put (h : NormalOk cpointer32Bit array) (key : Key κ) (value : α) :
    NormalStep cpointer32Bit (putNormal cpointer32Bit array key value) ((content cpointer32Bit array).put key value) := by
  have hget := get_normal cpointer32Bit h.normal key
  cases hfound : lookup (key.toName cpointer32Bit) array.list with
  | some property =>
    obtain ⟨hok, hcontent⟩ := changed h hfound (fun property => { property with value := value }) (fun _ => rfl)
    have hresult : putNormal cpointer32Bit array key value = (array.withPairs array.length
        (updateProperty (key.toName cpointer32Bit) (fun property => { property with value := value })
          array.propertyList.getPairs), .true) := by
      rw [putNormal]
      dsimp only
      rw [find_list, hfound]
      rfl
    have hexpected : (content cpointer32Bit array).put key value =
        ((content cpointer32Bit array).update key (value, property.configurable), .true) := by
      rw [Content.put, hget, hfound]
      rfl
    rw [hresult, hexpected]
    exact ⟨hok, hcontent, rfl⟩
  | none =>
    have hexpected : (content cpointer32Bit array).put key value =
        if (content cpointer32Bit array).Refuses key then (content cpointer32Bit array, .readonlyAssignment)
        else ((content cpointer32Bit array).update key (value, true), .true) := by
      rw [Content.put, hget, hfound]
      rfl
    by_cases hrefuse : (content cpointer32Bit array).Refuses key
    · have hresult : putNormal cpointer32Bit array key value = (array, .readonlyAssignment) := by
        rw [putNormal]
        dsimp only
        rw [find_list, hfound]
        dsimp only
        rw [if_pos ⟨hrefuse.1, hrefuse.2.1⟩, if_pos (by rw [show array.isWritable = false from hrefuse.2.2]; rfl)]
      rw [hresult, hexpected, if_pos hrefuse]
      exact ⟨h, rfl, rfl⟩
    · obtain ⟨hok, hcontent⟩ := created h value true hfound rfl
      have hresult : putNormal cpointer32Bit array key value =
          (array.withPairs ((content cpointer32Bit array).update key (value, true)).length
            (ecmaCreateProperty ⟨key.toName cpointer32Bit, value, true⟩ array.propertyList.getPairs), .true) := by
        rw [putNormal]
        dsimp only
        rw [find_list, hfound]
        dsimp only
        by_cases hnew : ecmaStringGetArrayIndex key ≠ uint32Max ∧ array.length ≤ ecmaStringGetArrayIndex key
        · have hwritable : ¬ (!array.isWritable) = true := by
            intro hnot
            exact hrefuse ⟨hnew.1, hnew.2, by rw [Bool.not_eq_true'] at hnot; exact hnot⟩
          have hlength : ((content cpointer32Bit array).update key (value, true)).length = ecmaStringGetArrayIndex key + 1 :=
            if_pos hnew
          rw [if_pos hnew, if_neg hwritable, hlength]
          rfl
        · have hlength : ((content cpointer32Bit array).update key (value, true)).length = array.length := if_neg hnew
          rw [if_neg hnew, hlength]
          rfl
      rw [hresult, hexpected, if_neg hrefuse]
      exact ⟨hok, hcontent, rfl⟩

/-- The update of the length after a definition. -/
theorem defineOwnPropertyNormal_eq (cpointer32Bit : Bool) (array : ArrayObject κ α) (key : Key κ) (value : α)
    (configurable : Bool) (hallowed : ¬ (content cpointer32Bit array).Refuses key) :
    defineOwnPropertyNormal cpointer32Bit array key value configurable =
      let result := ecmaOpGeneralObjectDefineOwnProperty cpointer32Bit array key value configurable
      if result.2 then
        ({ result.1 with length :=
            if key.IsIndex ∧ array.length ≤ ecmaStringGetArrayIndex key then ecmaStringGetArrayIndex key + 1
            else result.1.length }, .true)
      else (result.1, .redefinition) := by
  rw [defineOwnPropertyNormal]
  dsimp only
  by_cases hindex : ecmaStringGetArrayIndex key = uint32Max
  · have hnot : ¬ (key.IsIndex ∧ array.length ≤ ecmaStringGetArrayIndex key) := fun hnew => hnew.1 hindex
    rw [if_pos hindex, if_neg hnot]
    split
    · rfl
    · rfl
  · rw [if_neg hindex]
    by_cases hnew : array.length ≤ ecmaStringGetArrayIndex key
    · have hwritable : array.isWritable = true := by
        by_contra hnot
        exact hallowed ⟨hindex, hnew, Bool.eq_false_iff.mpr hnot⟩
      have hboth : key.IsIndex ∧ array.length ≤ ecmaStringGetArrayIndex key := ⟨hindex, hnew⟩
      rw [decide_eq_true hnew, hwritable, if_pos hboth]
      cases (ecmaOpGeneralObjectDefineOwnProperty cpointer32Bit array key value configurable).2 with
      | true => rfl
      | false => rfl
    · have hnot : ¬ (key.IsIndex ∧ array.length ≤ ecmaStringGetArrayIndex key) := fun hboth => hnew hboth.2
      rw [decide_eq_false hnew, if_neg hnot]
      cases (ecmaOpGeneralObjectDefineOwnProperty cpointer32Bit array key value configurable).2 with
      | true => rfl
      | false => rfl

theorem generalDefine_none {key : Key κ} (hfound : lookup (key.toName cpointer32Bit) array.list = none) (value : α)
    (configurable : Bool) : ecmaOpGeneralObjectDefineOwnProperty cpointer32Bit array key value configurable =
      (ecmaCreateNamedDataProperty cpointer32Bit array key value configurable, true) := by
  simp only [ecmaOpGeneralObjectDefineOwnProperty, find_list, hfound]

theorem generalDefine_some {key : Key κ} {property : Property κ α}
    (hfound : lookup (key.toName cpointer32Bit) array.list = some property) (value : α) (configurable : Bool) :
    ecmaOpGeneralObjectDefineOwnProperty cpointer32Bit array key value configurable =
      if !property.configurable && configurable then (array, false)
      else
        (array.withPairs array.length (updateProperty (key.toName cpointer32Bit)
          (fun property => { property with value := value, configurable := configurable })
            array.propertyList.getPairs), true) := by
  simp only [ecmaOpGeneralObjectDefineOwnProperty, find_list, hfound, ArrayObject.withPairs]

theorem normal_define (h : NormalOk cpointer32Bit array) (key : Key κ) (value : α) (configurable : Bool) :
    NormalStep cpointer32Bit (defineOwnPropertyNormal cpointer32Bit array key value configurable)
      ((content cpointer32Bit array).define key value configurable) := by
  have hget := get_normal cpointer32Bit h.normal key
  rw [Content.define, hget]
  by_cases hrefuse : (content cpointer32Bit array).Refuses key
  · have hresult : defineOwnPropertyNormal cpointer32Bit array key value configurable = (array, .redefinition) := by
      have hwritable : array.isWritable = false := hrefuse.2.2
      have hnew : array.length ≤ ecmaStringGetArrayIndex key := hrefuse.2.1
      rw [defineOwnPropertyNormal]
      dsimp only
      rw [if_neg hrefuse.1, decide_eq_true hnew, hwritable]
      rfl
    rw [hresult, if_pos hrefuse]
    exact ⟨h, rfl, rfl⟩
  · have hresult := defineOwnPropertyNormal_eq cpointer32Bit array key value configurable hrefuse
    rw [if_neg hrefuse]
    cases hfound : lookup (key.toName cpointer32Bit) array.list with
    | none =>
      obtain ⟨hok, hcontent⟩ := created h value configurable hfound rfl
      rw [generalDefine_none hfound] at hresult
      rw [hresult, Option.map_none, Option.any_none, if_neg (c := _ ∧ _) (fun hboth => Bool.false_ne_true hboth.2)]
      exact ⟨hok, hcontent, rfl⟩
    | some property =>
      have hgeneral := generalDefine_some hfound value configurable
      rw [Option.map_some, Option.any_some]
      by_cases hfixed : configurable = true ∧ (!property.configurable) = true
      · have hflag : (!property.configurable && configurable) = true := by rw [hfixed.1, hfixed.2]; rfl
        rw [if_pos hflag] at hgeneral
        rw [hgeneral] at hresult
        rw [hresult, if_pos hfixed]
        exact ⟨h, rfl, rfl⟩
      · obtain ⟨hok, hcontent⟩ := changed h hfound
          (fun property => { property with value := value, configurable := configurable }) (fun _ => rfl)
        have hflag : ¬ (!property.configurable && configurable) = true := by
          intro hand
          rw [Bool.and_eq_true] at hand
          exact hfixed ⟨hand.2, hand.1⟩
        have hold : ¬ (key.IsIndex ∧ array.length ≤ ecmaStringGetArrayIndex key) :=
          fun hnew => Nat.not_lt.mpr hnew.2 (h.index_lt hnew.1 hfound)
        rw [if_neg hflag] at hgeneral
        rw [hgeneral] at hresult
        dsimp only at hresult
        rw [if_pos rfl, if_neg hold] at hresult
        rw [hresult, if_neg hfixed]
        exact ⟨hok, hcontent, rfl⟩

/-- Some of the properties, and a length that covers their elements. -/
theorem NormalOk.sublist (h : NormalOk cpointer32Bit array) {length : Nat} {pairs : List (PropertyPair κ α)}
    (hsub : (properties pairs).Sublist array.list) (hlength : length ≤ array.length)
    (hcover : ∀ property ∈ properties pairs, ∀ key : Key κ, property.name = key.toName cpointer32Bit → key.IsIndex →
      ecmaStringGetArrayIndex key < array.length → ecmaStringGetArrayIndex key < length) :
    NormalOk cpointer32Bit (array.withPairs length pairs) where
  normal := h.normal
  pairs := ⟨_, rfl⟩
  short := Nat.le_trans hlength h.short
  distinct := by
    rw [list_withPairs]
    exact (hsub.map Property.name).nodup h.distinct
  named := by
    intro property hin
    rw [list_withPairs] at hin
    obtain ⟨key, hname, hlt⟩ := h.named property (hsub.subset hin)
    exact ⟨key, hname, fun hindex => hcover property hin key hname hindex (hlt hindex)⟩

theorem generalDelete_none {key : Key κ} (hnone : (content cpointer32Bit array).get key = none) :
    ecmaOpGeneralObjectDelete cpointer32Bit array key = (array, .true) := by
  have hget : ecmaOpObjectGetOwnProperty cpointer32Bit array key = none := hnone
  simp only [ecmaOpGeneralObjectDelete, hget]

theorem generalDelete_some (hnormal : array.isFast = false) {key : Key κ} {value : α} {configurable : Bool}
    (hsome : (content cpointer32Bit array).get key = some (value, configurable)) :
    ecmaOpGeneralObjectDelete cpointer32Bit array key =
      if !configurable then (array, .notConfigurable)
      else (array.withPairs array.length (ecmaDeleteProperty (key.toName cpointer32Bit) array.propertyList.getPairs),
        .true) := by
  have hget : ecmaOpObjectGetOwnProperty cpointer32Bit array key = some (value, configurable) := hsome
  rw [ecmaOpGeneralObjectDelete, hget, ecmaArrayObjectDeleteProperty, hnormal]
  rfl

theorem normal_delete (h : NormalOk cpointer32Bit array) (key : Key κ) :
    NormalStep cpointer32Bit (ecmaOpGeneralObjectDelete cpointer32Bit array key)
      ((content cpointer32Bit array).delete key) := by
  have hget := get_normal cpointer32Bit h.normal key
  rw [Content.delete]
  cases hfound : lookup (key.toName cpointer32Bit) array.list with
  | none =>
    rw [hfound, Option.map_none] at hget
    rw [generalDelete_none hget, hget]
    exact ⟨h, rfl, rfl⟩
  | some property =>
    rw [hfound, Option.map_some] at hget
    rw [generalDelete_some h.normal hget, hget]
    dsimp only
    cases hconfigurable : property.configurable with
    | false => exact ⟨h, rfl, rfl⟩
    | true =>
      have hlist := properties_delete (key.toName cpointer32Bit) array.propertyList.getPairs
      have hsub : (properties (ecmaDeleteProperty (key.toName cpointer32Bit) array.propertyList.getPairs)).Sublist
          array.list := by
        rw [hlist]
        exact clearSlot_sublist _ _
      refine ⟨h.sublist hsub (Nat.le_refl _) (fun _ _ _ _ _ hlt => hlt), ?_, rfl⟩
      show content cpointer32Bit (array.withPairs _ _) = _
      rw [content_withPairs h.normal]
      refine Content.ext rfl rfl ?_
      funext other
      show _ = if other = key then none else (content cpointer32Bit array).get other
      dsimp only
      rw [hlist, lookup_clearSlot h.distinct, get_normal _ h.normal]
      by_cases heq : other = key
      · rw [if_pos heq, if_pos (by rw [heq])]
        rfl
      · rw [if_neg heq, if_neg (fun hname => heq (toName_inj hname))]
        rfl

/-! ## Deleting from the end -/

/-- A property that `ecma_delete_array_properties` keeps. -/
def keeps (oldLength newLength : Nat) (property : Property κ α) : Bool :=
  let index := ecmaStringGetPropertyIndex property.name
  !(property.configurable && decide (index < oldLength ∧ newLength ≤ index))

omit [DecidableEq κ] in
theorem properties_deleteSlots (oldLength newLength : Nat) (pairs : List (PropertyPair κ α)) :
    properties (pairs.foldr (fun pair => linkPair ⟨deleteSlot oldLength newLength pair.first,
      deleteSlot oldLength newLength pair.second⟩) []) = (properties pairs).filter (keeps oldLength newLength) := by
  have hslot : ∀ (slot : Option (Property κ α)),
      (deleteSlot oldLength newLength slot).toList = slot.toList.filter (keeps oldLength newLength) := by
    intro slot
    cases slot with
    | none => rfl
    | some property =>
      show (Option.filter (keeps oldLength newLength) (some property)).toList = _
      rw [Option.toList_some, List.filter_singleton]
      cases hkeep : keeps oldLength newLength property with
      | true => rw [Option.filter_some_pos hkeep]; rfl
      | false => rw [Option.filter_some_neg hkeep]; rfl
  induction pairs with
  | nil => rfl
  | cons pair rest ih =>
    rw [List.foldr_cons, properties_linkPair, properties_cons, properties_cons, hslot, hslot, ih, List.filter_append,
      List.filter_append]

/-- The first walk raises the length just above the last element that is not configurable. -/
structure Raised (oldLength newLength : Nat) (list : List (Property κ α)) (raised : Nat) : Prop where
  ge : newLength ≤ raised
  reached : raised = newLength ∨ ∃ property ∈ list, property.configurable = false ∧
    newLength ≤ ecmaStringGetPropertyIndex property.name ∧ ecmaStringGetPropertyIndex property.name < oldLength ∧
    raised = ecmaStringGetPropertyIndex property.name + 1
  above : ∀ property ∈ list, property.configurable = false → ecmaStringGetPropertyIndex property.name < oldLength →
    ecmaStringGetPropertyIndex property.name < raised

section Raise

variable {oldLength newLength middle raised : Nat}

omit [DecidableEq κ] in
theorem raise_property (property : Property κ α) :
    Raised oldLength newLength [property] (raiseLength oldLength newLength (some property)) := by
  rw [raiseLength]
  split
  · rename_i hraise
    refine ⟨by omega, Or.inr ⟨property, List.mem_singleton_self _, ?_, hraise.2.2, hraise.2.1, rfl⟩, fun other hin _ _ => ?_⟩
    · rw [← Bool.not_eq_true']
      exact hraise.1
    · rw [List.mem_singleton.mp hin]
      exact Nat.lt_succ_self _
  · rename_i hkept
    refine ⟨Nat.le_refl _, Or.inl rfl, fun other hin hfixed hlt => ?_⟩
    rw [List.mem_singleton.mp hin] at hfixed hlt ⊢
    exact Nat.lt_of_not_le fun hle => hkept ⟨by rw [hfixed]; rfl, hlt, hle⟩

omit [DecidableEq κ] in
theorem Raised.append {first second : List (Property κ α)} (h : Raised oldLength newLength first middle)
    (h' : Raised oldLength middle second raised) : Raised oldLength newLength (first ++ second) raised := by
  refine ⟨Nat.le_trans h.ge h'.ge, ?_, fun property hin hfixed hlt => ?_⟩
  · cases h'.reached with
    | inl heq =>
      rw [heq]
      refine h.reached.imp_right ?_
      rintro ⟨property, hin, hrest⟩
      exact ⟨property, List.mem_append_left _ hin, hrest⟩
    | inr hlast =>
      obtain ⟨property, hin, hfixed, hle, hrest⟩ := hlast
      exact Or.inr ⟨property, List.mem_append_right _ hin, hfixed, Nat.le_trans h.ge hle, hrest⟩
  · cases List.mem_append.mp hin with
    | inl hin => exact Nat.lt_of_lt_of_le (h.above property hin hfixed hlt) h'.ge
    | inr hin => exact h'.above property hin hfixed hlt

omit [DecidableEq κ] in
theorem raise_slots (oldLength newLength : Nat) (list : List (Option (Property κ α))) :
    Raised oldLength newLength list.reduceOption (list.foldl (raiseLength oldLength) newLength) := by
  induction list generalizing newLength with
  | nil => exact ⟨Nat.le_refl _, Or.inl rfl, fun property hin => absurd hin List.not_mem_nil⟩
  | cons slot rest ih =>
    have hrest := ih (raiseLength oldLength newLength slot)
    cases slot with
    | none => exact hrest
    | some property => exact (raise_property property).append hrest

end Raise

/-- The element of an index that a property has. -/
theorem NormalOk.get_index (h : NormalOk cpointer32Bit array) {property : Property κ α} (hin : property ∈ array.list)
    (hlt : ecmaStringGetPropertyIndex property.name < array.length) :
    (content cpointer32Bit array).get (.number (BitVec.ofNat 32 (ecmaStringGetPropertyIndex property.name))) =
      some (property.value, property.configurable) := by
  obtain ⟨key, hname, -⟩ := h.named property hin
  have hshort := h.short
  have hindex : ecmaStringGetPropertyIndex property.name = ecmaStringGetArrayIndex key := by
    rw [hname, propertyIndex_toName]
  rw [hindex] at hlt ⊢
  have hkey : key = .number (BitVec.ofNat 32 (ecmaStringGetArrayIndex key)) := by
    cases key with
    | number n => rw [ecmaStringGetArrayIndex, BitVec.ofNat_toNat, BitVec.setWidth_eq]
    | other name =>
      have hmax : ecmaStringGetArrayIndex (Key.other name) = uint32Max := rfl
      omega
  rw [← hkey, get_normal _ h.normal, ← hname, lookup_of_mem h.distinct hin]
  rfl

/-- An element below the length, with its property. -/
theorem NormalOk.of_get (h : NormalOk cpointer32Bit array) {key : Key κ} {value : α} {configurable : Bool}
    (hget : (content cpointer32Bit array).get key = some (value, configurable)) :
    ∃ property ∈ array.list, property.name = key.toName cpointer32Bit ∧ property.configurable = configurable ∧
      (key.IsIndex → ecmaStringGetArrayIndex key < array.length) := by
  rw [get_normal _ h.normal] at hget
  obtain ⟨property, hfound, heq⟩ := Option.map_eq_some_iff.mp hget
  obtain ⟨hin, hname⟩ := lookup_some hfound
  exact ⟨property, hin, hname, congrArg Prod.snd heq, fun hindex => h.index_lt hindex hfound⟩

theorem raised_eq (h : NormalOk cpointer32Bit array) {newLength raised : Nat}
    (hraised : Raised array.length newLength array.list raised) :
    stopLength (content cpointer32Bit array).fixed newLength array.length = raised := by
  have hshort := h.short
  apply stopLength_eq
  · cases hraised.reached with
    | inl heq => exact Or.inl heq
    | inr hlast =>
      obtain ⟨property, hin, hfixed, hle, hold, heq⟩ := hlast
      refine Or.inr ⟨by omega, by omega, ?_⟩
      have hindex : raised - 1 = ecmaStringGetPropertyIndex property.name := by omega
      rw [Content.fixed, hindex, h.get_index hin hold, hfixed]
      rfl
  · intro i hi hge
    rw [Content.fixed]
    cases hget : (content cpointer32Bit array).get (.number (BitVec.ofNat 32 i)) with
    | none => rfl
    | some found =>
      obtain ⟨value, configurable⟩ := found
      obtain ⟨property, hin, hname, hflag, -⟩ := h.of_get hget
      cases configurable with
      | true => rfl
      | false =>
        have hindex : ecmaStringGetPropertyIndex property.name = i := by
          rw [hname, propertyIndex_toName, ecmaStringGetArrayIndex, BitVec.toNat_ofNat, Nat.mod_eq_of_lt]
          rw [uint32Max] at hshort
          omega
        have habove := hraised.above property hin hflag (by omega)
        omega

/-- The elements that are kept are those below the raised length. -/
theorem keeps_eq (h : NormalOk cpointer32Bit array) {newLength stop : Nat}
    (hraised : Raised array.length newLength array.list stop) {property : Property κ α}
    (hfound : lookup (key.toName cpointer32Bit) array.list = some property) :
    keeps array.length stop property = !decide (key.IsIndex ∧ stop ≤ ecmaStringGetArrayIndex key) := by
  obtain ⟨hin, hname⟩ := lookup_some hfound
  have hindex : ecmaStringGetPropertyIndex property.name = ecmaStringGetArrayIndex key := by
    rw [hname, propertyIndex_toName]
  have hshort := h.short
  have habove := hraised.above property hin
  rw [hindex] at habove
  rw [keeps, hindex]
  congr 1
  by_cases hbehind : key.IsIndex ∧ stop ≤ ecmaStringGetArrayIndex key
  · have hold := h.index_lt hbehind.1 hfound
    have hconfigurable : property.configurable = true := by
      by_contra hnot
      have hlt := habove (Bool.eq_false_iff.mpr hnot) hold
      omega
    rw [hconfigurable, decide_eq_true hbehind, decide_eq_true ⟨hold, hbehind.2⟩]
    rfl
  · rw [decide_eq_false hbehind, decide_eq_false, Bool.and_false]
    exact fun hrange => hbehind ⟨fun heq => by omega, hrange.2⟩

/-- A longer array has the same elements. -/
theorem normal_lengthen (h : NormalOk cpointer32Bit array) {length : Nat} (hle : array.length ≤ length)
    (hshort : length ≤ uint32Max) :
    NormalOk cpointer32Bit { array with length := length } ∧
      content cpointer32Bit { array with length := length } = (content cpointer32Bit array).truncate length := by
  have hnormal : ({ array with length := length } : ArrayObject κ α).isFast = false := h.normal
  refine ⟨⟨h.normal, h.pairs, hshort, h.distinct, ?_⟩, ?_⟩
  · intro property hin
    obtain ⟨key, hname, hlt⟩ := h.named property hin
    exact ⟨key, hname, fun hindex => Nat.lt_of_lt_of_le (hlt hindex) hle⟩
  · refine Content.ext rfl rfl ?_
    funext key
    show (content cpointer32Bit _).get key =
      if key.IsIndex ∧ length ≤ ecmaStringGetArrayIndex key then none else (content cpointer32Bit array).get key
    rw [get_normal _ hnormal]
    split
    · rename_i hbehind
      show (lookup _ array.list).map _ = none
      cases hfound : lookup (key.toName cpointer32Bit) array.list with
      | none => rfl
      | some property =>
        have hlt := h.index_lt hbehind.1 hfound
        omega
    · rw [get_normal _ h.normal]
      rfl

/-- The array after `ecma_delete_array_properties` and the change of its length. -/
theorem normal_deleteFrom (h : NormalOk cpointer32Bit array) {newLength : Nat} (hlt : newLength < array.length) :
    (ecmaDeleteArrayProperties array newLength array.length).2 =
        stopLength (content cpointer32Bit array).fixed newLength array.length ∧
      NormalOk cpointer32Bit { (ecmaDeleteArrayProperties array newLength array.length).1 with
        length := (ecmaDeleteArrayProperties array newLength array.length).2 } ∧
      content cpointer32Bit { (ecmaDeleteArrayProperties array newLength array.length).1 with
        length := (ecmaDeleteArrayProperties array newLength array.length).2 } =
        (content cpointer32Bit array).truncate (stopLength (content cpointer32Bit array).fixed newLength array.length) := by
  have hraised := raise_slots array.length newLength (slots array.propertyList.getPairs)
  have hfold : array.propertyList.getPairs.foldl (fun length pair =>
      raiseLength array.length (raiseLength array.length length pair.first) pair.second) newLength =
      (slots array.propertyList.getPairs).foldl (raiseLength array.length) newLength := by
    generalize array.propertyList.getPairs = pairs
    generalize newLength = n
    induction pairs generalizing n with
    | nil => rfl
    | cons pair rest ih => rw [List.foldl_cons, slots_cons, List.foldl_cons, List.foldl_cons, ih]
  rw [raised_eq h hraised]
  generalize hstop : (slots array.propertyList.getPairs).foldl (raiseLength array.length) newLength = stop at hraised hfold
  have hle : stop ≤ array.length := by
    cases hraised.reached with
    | inl heq => omega
    | inr hlast =>
      obtain ⟨property, -, -, -, hold, heq⟩ := hlast
      omega
  have hresult : ecmaDeleteArrayProperties array newLength array.length =
      if stop = array.length then (array, stop)
      else (array.withPairs array.length (array.propertyList.getPairs.foldr (fun pair =>
        linkPair ⟨deleteSlot array.length stop pair.first, deleteSlot array.length stop pair.second⟩) []), stop) := by
    rw [ecmaDeleteArrayProperties, h.normal, if_neg Bool.false_ne_true]
    dsimp only
    rw [hfold]
    rfl
  have hget : ∀ key : Key κ, ((content cpointer32Bit array).truncate stop).get key =
      ((lookup (key.toName cpointer32Bit) array.list).filter (keeps array.length stop)).map
        fun property => (property.value, property.configurable) := by
    intro key
    show (if key.IsIndex ∧ stop ≤ ecmaStringGetArrayIndex key then none else (content cpointer32Bit array).get key) = _
    rw [get_normal _ h.normal]
    cases hfound : lookup (key.toName cpointer32Bit) array.list with
    | none =>
      rw [Option.map_none, Option.filter_none, Option.map_none, ite_self]
    | some property =>
      have hkeep := keeps_eq h hraised hfound
      by_cases hbehind : key.IsIndex ∧ stop ≤ ecmaStringGetArrayIndex key
      · rw [decide_eq_true hbehind] at hkeep
        rw [if_pos hbehind, Option.filter_some_neg hkeep]
        rfl
      · rw [decide_eq_false hbehind] at hkeep
        rw [if_neg hbehind, Option.filter_some_pos hkeep]
  rw [hresult]
  by_cases hsame : stop = array.length
  · rw [if_pos hsame]
    exact ⟨rfl, normal_lengthen h (Nat.le_of_eq hsame.symm) (by rw [hsame]; exact h.short)⟩
  · rw [if_neg hsame]
    have hlist := properties_deleteSlots array.length stop array.propertyList.getPairs
    refine ⟨rfl, ?_, ?_⟩
    · show NormalOk cpointer32Bit (array.withPairs stop _)
      refine h.sublist ?_ hle ?_
      · rw [hlist]
        exact List.filter_sublist
      · intro property hin key hname hindex hold
        rw [hlist] at hin
        obtain ⟨hmem, hkeep⟩ := List.mem_filter.mp hin
        rw [keeps_eq h hraised (by rw [← hname]; exact lookup_of_mem h.distinct hmem), Bool.not_eq_true',
          decide_eq_false_iff_not] at hkeep
        exact Nat.lt_of_not_le fun hge => hkeep ⟨hindex, hge⟩
    · show content cpointer32Bit (array.withPairs stop _) = _
      rw [content_withPairs h.normal]
      refine Content.ext rfl rfl ?_
      funext key
      dsimp only
      rw [hget key, hlist]
      exact congrArg _ (lookup_filter h.distinct (keeps array.length stop) (key.toName cpointer32Bit))

/-- `length` of an array in normal mode is made read-only. -/
theorem normal_readOnly (h : NormalOk cpointer32Bit array) :
    NormalOk cpointer32Bit (makeLengthReadOnly cpointer32Bit array) ∧
      content cpointer32Bit (makeLengthReadOnly cpointer32Bit array) =
        { content cpointer32Bit array with writable := false } := by
  have hresult : makeLengthReadOnly cpointer32Bit array =
      ⟨array.length, array.lengthPropAndHoleCount &&& ~~~propertyFlagWritable, array.propertyList⟩ := by
    rw [makeLengthReadOnly, h.normal]
    rfl
  have hnormal := isFast_clearWritable array
  rw [h.normal] at hnormal
  rw [hresult]
  refine ⟨⟨hnormal, h.pairs, h.short, h.distinct, h.named⟩, ?_⟩
  refine Content.ext rfl (isWritable_clearWritable array) ?_
  funext key
  show (content cpointer32Bit _).get key = (content cpointer32Bit array).get key
  rw [get_normal _ hnormal, get_normal _ h.normal]
  rfl

/-- The end of `ecma_op_array_object_set_length`. -/
theorem normal_restrict {expected : Content κ α} (h : NormalOk cpointer32Bit array)
    (hcontent : content cpointer32Bit array = expected) (flags : LengthFlags) (completion : Completion) :
    NormalStep cpointer32Bit
      (if flags.writable = some false then makeLengthReadOnly cpointer32Bit array else array, completion)
      (expected.restrict flags, completion) := by
  rw [Content.restrict]
  by_cases hflags : flags.writable = some false
  · obtain ⟨hok, hread⟩ := normal_readOnly h
    rw [if_pos hflags, if_pos hflags, ← hcontent]
    exact ⟨hok, hread, rfl⟩
  · rw [if_neg hflags, if_neg hflags]
    exact ⟨h, hcontent, rfl⟩

omit [DecidableEq κ] in
/-- A new length that is the old one. -/
theorem setLength_same (available : BitVec 32) {flags : LengthFlags} (hrefused : ¬ flags.refused = true) {n : BitVec 32}
    (hsame : n.toNat = array.length) : ecmaOpArrayObjectSetLength cpointer32Bit available array (some n) flags =
      if flags.writable = some true ∧ array.isWritable = false then some (array, .redefinition)
      else some (if flags.writable = some false then makeLengthReadOnly cpointer32Bit array else array, .true) := by
  rw [ecmaOpArrayObjectSetLength, if_neg hrefused, if_pos hsame]
  cases flags.writable with
  | none => rfl
  | some writable =>
    cases writable with
    | false => rfl
    | true =>
      cases array.isWritable with
      | false => rfl
      | true => rfl

theorem normal_setLength (h : NormalOk cpointer32Bit array) (available : BitVec 32) (newLen : Option (BitVec 32))
    (flags : LengthFlags) : ∃ result, ecmaOpArrayObjectSetLength cpointer32Bit available array newLen flags = some result ∧
      NormalStep cpointer32Bit result ((content cpointer32Bit array).setLength newLen flags) := by
  cases newLen with
  | none => exact ⟨_, rfl, h, rfl, rfl⟩
  | some n =>
    have hlength : (content cpointer32Bit array).length = array.length := rfl
    have hwritable : (content cpointer32Bit array).writable = array.isWritable := rfl
    rw [Content.setLength, hlength, hwritable]
    by_cases hrefused : flags.refused = true
    · rw [ecmaOpArrayObjectSetLength, if_pos hrefused, if_pos hrefused]
      exact ⟨_, rfl, h, rfl, rfl⟩
    · rw [if_neg hrefused]
      by_cases hsame : n.toNat = array.length
      · rw [setLength_same available hrefused hsame, if_pos hsame]
        split
        · exact ⟨_, rfl, h, rfl, rfl⟩
        · exact ⟨_, rfl, normal_restrict h rfl flags .true⟩
      · rw [ecmaOpArrayObjectSetLength, if_neg hrefused, if_neg hsame, if_neg hsame]
        cases harray : array.isWritable with
        | false => exact ⟨_, rfl, h, rfl, rfl⟩
        | true =>
          rw [if_neg (show ¬ (!true) = true by decide), if_neg (show ¬ true = false by decide)]
          by_cases hlt : n.toNat < array.length
          · obtain ⟨hstop, hok, hcontent⟩ := normal_deleteFrom h hlt
            rw [if_pos hlt]
            dsimp only [Option.bind_eq_bind, Option.bind_some]
            rw [← hstop] at hcontent ⊢
            exact ⟨_, rfl, normal_restrict hok hcontent flags _⟩
          · have hmax := n.isLt
            obtain ⟨hok, hcontent⟩ := normal_lengthen h (show array.length ≤ n.toNat by omega) (by rw [uint32Max]; omega)
            have hstop : stopLength (content cpointer32Bit array).fixed n.toNat array.length = n.toNat :=
              stopLength_eq (Or.inl rfl) (fun i hi hge => by omega)
            rw [if_neg hlt, h.normal, hstop]
            dsimp only [Option.bind_eq_bind, Option.bind_some]
            exact ⟨_, rfl, normal_restrict hok hcontent flags _⟩

end Normal

end FastArray
end JJS
