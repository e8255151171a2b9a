import JJS.FastArray.Convert
import JJS.FastArray.Dense

/-!
# JJS.FastArray.Refine

The operations keep the content of an array in both modes (`Ok.step`) as long as the fields of its representation can
hold what is put into them: a converted array has its elements at indices that fit direct strings, and the holes of an
array in fast mode are fewer than the 24 bits of their count can number.
-/

namespace JJS
namespace FastArray

open Strings (directStringMaxImm uint32Max)

variable {κ α : Type} [DecidableEq κ]

/-! ## Both modes -/

/-- An array in fast mode, with its holes counted, or in normal mode. -/
inductive Ok (cpointer32Bit : Bool) (array : ArrayObject κ α) : Prop where
  | fast {length : Nat} {values : List (Option α)} :
      FastWith length values array → holesBelow values length < 2 ^ 24 → Ok cpointer32Bit array
  | normal : NormalOk cpointer32Bit array → Ok cpointer32Bit array

/-- The array after an operation is in one of the modes, and it and the completion are what the content says. -/
structure StepOk (cpointer32Bit : Bool) (result : ArrayObject κ α × Completion) (expected : Content κ α × Completion) :
    Prop where
  ok : Ok cpointer32Bit result.1
  content_eq : content cpointer32Bit result.1 = expected.1
  completion_eq : result.2 = expected.2

/-- The elements of an array in fast mode are below an index that fits a direct string. -/
def Direct (cpointer32Bit : Bool) (array : ArrayObject κ α) (length : Nat) : Prop :=
  DirectBelow cpointer32Bit array.propertyList.getValues length

/-- New holes at the end of an array in fast mode: if they are too many the array can be converted, and otherwise they
can be counted, or the program ends. -/
def GrowFits (cpointer32Bit : Bool) (array : ArrayObject κ α) (newHoles : Nat) (ends : Prop) : Prop :=
  if array.tooManyHoles newHoles then Direct cpointer32Bit array array.length
  else array.holes + newHoles < 2 ^ 24 ∨ ends

/-- A write to an array in fast mode. A key that is no index converts the array. -/
def WriteFits (cpointer32Bit : Bool) (available : BitVec 32) (array : ArrayObject κ α) (key : Key κ) : Prop :=
  if key.IsIndex then
    array.length ≤ ecmaStringGetArrayIndex key →
      GrowFits cpointer32Bit array (ecmaStringGetArrayIndex key - array.length)
        (fastArrayAlignLength array.length ≤ ecmaStringGetArrayIndex key ∧
          available.toNat < fastArrayAlignLength (ecmaStringGetArrayIndex key + 1) * valueSize)
  else Direct cpointer32Bit array array.length

/-- A new length of an array in fast mode. A read-only length converts the array. -/
def LengthFits (cpointer32Bit : Bool) (available : BitVec 32) (array : ArrayObject κ α) (newLen : Option (BitVec 32))
    (flags : LengthFlags) : Prop :=
  ∀ n, newLen = some n → flags.refused = false →
    (array.length < n.toNat → GrowFits cpointer32Bit array (n.toNat - array.length)
      (available.toNat < fastArrayAlignLength n.toNat * valueSize)) ∧
    (flags.writable = some false → Direct cpointer32Bit array n.toNat)

/-- The representation of an array in fast mode can hold what an operation makes of it. -/
def Fits (cpointer32Bit : Bool) (available : BitVec 32) (array : ArrayObject κ α) (op : Op κ α) : Prop :=
  array.isFast = true → match op with
    | .put key _ => WriteFits cpointer32Bit available array key
    | .define key _ configurable =>
      if configurable then WriteFits cpointer32Bit available array key else Direct cpointer32Bit array array.length
    | .delete key => (ecmaOpObjectGetOwnProperty cpointer32Bit array key).isSome = true → array.holes + 1 < 2 ^ 24
    | .putLength newLen => LengthFits cpointer32Bit available array newLen { refused := false, writable := none }
    | .setLength newLen flags => LengthFits cpointer32Bit available array newLen flags
    | .convert => Direct cpointer32Bit array array.length

section Steps

variable {cpointer32Bit : Bool} {available : BitVec 32} {array array' : ArrayObject κ α} {key : Key κ} {value : α}
variable {length : Nat} {values values' : List (Option α)} {completion : Completion}

theorem NormalStep.stepOk {result : ArrayObject κ α × Completion} {expected : Content κ α × Completion}
    (h : NormalStep cpointer32Bit result expected) : StepOk cpointer32Bit result expected :=
  ⟨.normal h.ok, h.content_eq, h.completion_eq⟩

omit [DecidableEq κ] in
theorem FastWith.isWritable (h : FastWith length values array) : array.isWritable = true := by
  rw [h.array_eq]
  exact isWritable_fastArray length values

omit [DecidableEq κ] in
theorem FastWith.values_eq (h : FastWith length values array) : array.propertyList.getValues = values := by
  rw [h.array_eq]
  exact h.buffer.getValues

theorem FastWith.content_eq (h : FastWith length values array) :
    content cpointer32Bit array = ⟨length, true, elements values⟩ := by
  rw [h.array_eq]
  exact content_fastArray cpointer32Bit h.buffer

/-- The conversion under the condition on the array. -/
theorem FastWith.convert_direct (h : FastWith length values array) (hdirect : Direct cpointer32Bit array array.length) :
    NormalOk cpointer32Bit (ecmaFastArrayConvertToNormal cpointer32Bit array) ∧
      content cpointer32Bit (ecmaFastArrayConvertToNormal cpointer32Bit array) = content cpointer32Bit array := by
  rw [Direct, h.values_eq, h.length_eq] at hdirect
  exact h.convert hdirect

/-- What the normal mode does after the conversion. -/
theorem FastWith.converted (h : FastWith length values array) (hdirect : Direct cpointer32Bit array array.length)
    {f : ArrayObject κ α → ArrayObject κ α × Completion} (g : Content κ α → Content κ α × Completion)
    (hnormal : ∀ {array}, NormalOk cpointer32Bit array → NormalStep cpointer32Bit (f array) (g (content cpointer32Bit array))) :
    StepOk cpointer32Bit (f (ecmaFastArrayConvertToNormal cpointer32Bit array)) (g (content cpointer32Bit array)) := by
  obtain ⟨hok, hcontent⟩ := h.convert_direct hdirect
  rw [← hcontent]
  exact (hnormal hok).stepOk

/-! ## Writes -/

omit [DecidableEq κ] in
/-- The elements of a buffer are configurable. -/
theorem elements_configurable {property : α × Bool} (h : elements values key = some property) : property.2 = true := by
  rw [elements] at h
  split at h
  · obtain ⟨element, -, rfl⟩ := Option.map_eq_some_iff.mp h
    rfl
  · cases h

omit [DecidableEq κ] in
theorem not_refuses (key : Key κ) : ¬ (⟨length, true, elements values⟩ : Content κ α).Refuses key :=
  fun hrefuses => Bool.noConfusion hrefuses.2.2

/-- In fast mode every property can be written. -/
theorem put_fastContent (key : Key κ) (value : α) : (⟨length, true, elements values⟩ : Content κ α).put key value =
    ((⟨length, true, elements values⟩ : Content κ α).update key (value, true), .true) := by
  rw [Content.put]
  dsimp only
  cases hget : elements values key with
  | none => exact if_neg (not_refuses key)
  | some property =>
    have hconfigurable := elements_configurable hget
    dsimp only
    rw [hconfigurable]

theorem define_fastContent (key : Key κ) (value : α) :
    (⟨length, true, elements values⟩ : Content κ α).define key value true =
      ((⟨length, true, elements values⟩ : Content κ α).update key (value, true), .true) := by
  rw [Content.define, if_neg (not_refuses key), if_neg]
  rintro ⟨-, hfixed⟩
  dsimp only at hfixed
  cases hget : elements values key with
  | none =>
    rw [hget] at hfixed
    cases hfixed
  | some property =>
    rw [hget, Option.any_some, elements_configurable hget] at hfixed
    cases hfixed

/-- The slots after a write are the content after it. -/
theorem content_written (h : FastWith length values array) (hindex : key.IsIndex) {newLength : Nat}
    (hlength : newLength = if length ≤ ecmaStringGetArrayIndex key then ecmaStringGetArrayIndex key + 1 else length)
    (h' : FastWith newLength values' array')
    (hslots : ∀ j, values'.getD j none = if j = ecmaStringGetArrayIndex key then some value else values.getD j none) :
    content cpointer32Bit array' = (content cpointer32Bit array).update key (value, true) := by
  rw [h.content_eq, h'.content_eq]
  refine Content.ext ?_ rfl ?_
  · show newLength = if key.IsIndex ∧ length ≤ ecmaStringGetArrayIndex key then ecmaStringGetArrayIndex key + 1 else length
    rw [hlength]
    by_cases hle : length ≤ ecmaStringGetArrayIndex key
    · rw [if_pos hle, if_pos ⟨hindex, hle⟩]
    · rw [if_neg hle, if_neg (fun hboth => hle hboth.2)]
  · funext other
    show elements values' other = if other = key then some (value, true) else elements values other
    rw [elements, elements]
    by_cases heq : other = key
    · rw [if_pos heq, heq, if_pos hindex, hslots, if_pos rfl]
      rfl
    · rw [if_neg heq]
      by_cases hother : other.IsIndex
      · rw [if_pos hother, if_pos hother, hslots, if_neg (fun hsame => heq (index_inj hother hsame))]
      · rw [if_neg hother, if_neg hother]

/-- A write to an element in fast mode: it is done, or the array is to be converted. -/
theorem FastWith.write (h : FastWith length values array) (hholes : holesBelow values length < 2 ^ 24)
    (hindex : key.IsIndex) (hfits : WriteFits cpointer32Bit available array key) {set : Bool}
    (hset : ecmaFastArraySetProperty cpointer32Bit available array (ecmaStringGetArrayIndex key) value = some (array', set)) :
    set = true ∧ Ok cpointer32Bit array' ∧ content cpointer32Bit array' = (content cpointer32Bit array).update key (value, true) ∨
      set = false ∧ array' = ecmaFastArrayConvertToNormal cpointer32Bit array ∧ Direct cpointer32Bit array array.length := by
  by_cases hlt : ecmaStringGetArrayIndex key < length
  · have hge := align_ge h.buffer.short
    have hsize := h.buffer.size
    obtain ⟨array1, hbelow, hfast, hle⟩ := @FastWith.setBelow κ α values _ _ _ cpointer32Bit available value array h hlt
    rw [hbelow] at hset
    cases hset
    refine Or.inl ⟨rfl, .fast hfast (by omega), content_written h hindex (by rw [if_neg (by omega)]) hfast fun j => ?_⟩
    exact getD_set _ _ _ _ (by omega)
  · rw [WriteFits, if_pos hindex, h.length_eq] at hfits
    have hgrow := hfits (Nat.not_lt.mp hlt)
    rw [GrowFits] at hgrow
    by_cases hmany : array.tooManyHoles (ecmaStringGetArrayIndex key - length) = true
    · rw [if_pos hmany] at hgrow
      rw [ecmaFastArraySetProperty, h.length_eq, if_neg hlt] at hset
      dsimp only at hset
      rw [if_pos hmany] at hset
      cases hset
      exact Or.inr ⟨rfl, rfl, hgrow⟩
    · rw [if_neg hmany, h.holes] at hgrow
      cases hgrow with
      | inl hfit =>
        obtain ⟨htrue, values', hfast, hslots, hcount⟩ :=
          h.setBehind_slots (Nat.not_lt.mp hlt) (Bool.eq_false_iff.mpr hmany) hfit hset
        exact Or.inl ⟨htrue, .fast hfast (by omega),
          content_written h hindex (by rw [if_pos (Nat.not_lt.mp hlt)]) hfast hslots⟩
      | inr hends =>
        rw [ecmaFastArraySetProperty, h.length_eq, if_neg hlt] at hset
        dsimp only at hset
        rw [if_neg hmany, if_neg (Nat.not_lt.mpr hends.1), ecmaFastArrayExtend, if_pos hends.2] at hset
        cases hset

/-- A write in fast mode that goes on in normal mode when it converts the array. -/
theorem FastWith.written (h : FastWith length values array) (hholes : holesBelow values length < 2 ^ 24)
    (hfits : WriteFits cpointer32Bit available array key) {f : ArrayObject κ α → ArrayObject κ α × Completion}
    (g : Content κ α → Content κ α × Completion)
    (hfast : g (content cpointer32Bit array) = ((content cpointer32Bit array).update key (value, true), .true))
    (hnormal : ∀ {array}, NormalOk cpointer32Bit array → NormalStep cpointer32Bit (f array) (g (content cpointer32Bit array)))
    (hwrite : (if ecmaStringGetArrayIndex key = uint32Max then some (f (ecmaFastArrayConvertToNormal cpointer32Bit array))
      else (ecmaFastArraySetProperty cpointer32Bit available array (ecmaStringGetArrayIndex key) value).bind fun result =>
        if result.2 then some (result.1, .true) else some (f result.1)) = some (array', completion)) :
    StepOk cpointer32Bit (array', completion) (g (content cpointer32Bit array)) := by
  by_cases hindex : key.IsIndex
  · rw [if_neg hindex] at hwrite
    obtain ⟨⟨array1, set⟩, hset, hwrite⟩ := Option.bind_eq_some_iff.mp hwrite
    cases h.write hholes hindex hfits hset with
    | inl hwritten =>
      obtain ⟨rfl, hok, hcontent⟩ := hwritten
      cases hwrite
      rw [hfast]
      exact ⟨hok, hcontent, rfl⟩
    | inr hconverted =>
      obtain ⟨rfl, rfl, hdirect⟩ := hconverted
      rw [if_neg Bool.false_ne_true, Option.some.injEq] at hwrite
      rw [← hwrite]
      exact h.converted hdirect g hnormal
  · rw [WriteFits, if_neg hindex] at hfits
    rw [if_pos (Classical.not_not.mp hindex), Option.some.injEq] at hwrite
    rw [← hwrite]
    exact h.converted hfits g hnormal

theorem FastWith.put (h : FastWith length values array) (hholes : holesBelow values length < 2 ^ 24)
    (hfits : WriteFits cpointer32Bit available array key)
    (hput : ecmaOpObjectPut cpointer32Bit available array key value = some (array', completion)) :
    StepOk cpointer32Bit (array', completion) ((content cpointer32Bit array).put key value) := by
  rw [ecmaOpObjectPut, if_pos h.isFast] at hput
  exact h.written hholes hfits (·.put key value) (by rw [h.content_eq]; exact put_fastContent key value)
    (fun hok => normal_put hok key value) hput

theorem FastWith.define (h : FastWith length values array) (hholes : holesBelow values length < 2 ^ 24) {configurable : Bool}
    (hfits : Fits cpointer32Bit available array (.define key value configurable))
    (hdefine : ecmaOpArrayObjectDefineOwnProperty cpointer32Bit available array key value configurable =
      some (array', completion)) :
    StepOk cpointer32Bit (array', completion) ((content cpointer32Bit array).define key value configurable) := by
  have hfits := hfits h.isFast
  rw [ecmaOpArrayObjectDefineOwnProperty, if_pos h.isFast] at hdefine
  cases configurable with
  | false =>
    rw [← Option.some.inj hdefine]
    exact h.converted hfits (·.define key value false) fun hok => normal_define hok key value false
  | true =>
    exact h.written hholes hfits (·.define key value true) (by rw [h.content_eq]; exact define_fastContent key value)
      (fun hok => normal_define hok key value true) hdefine

/-! ## Deletions -/

/-- An element in fast mode is below the length. -/
theorem FastWith.element (h : FastWith length values array) {property : α × Bool}
    (hget : ecmaOpObjectGetOwnProperty cpointer32Bit array key = some property) :
    key.IsIndex ∧ ecmaStringGetArrayIndex key < length ∧
      ∃ element, values.getD (ecmaStringGetArrayIndex key) none = some element ∧ property = (element, true) := by
  have hcontent : elements values key = some property := by
    have heq := congrArg (fun content => content.get key) (@FastWith.content_eq κ α _ cpointer32Bit _ _ _ h)
    exact heq.symm.trans hget
  rw [elements] at hcontent
  split at hcontent
  · rename_i hindex
    obtain ⟨element, helement, hproperty⟩ := Option.map_eq_some_iff.mp hcontent
    refine ⟨hindex, ?_, element, helement, hproperty.symm⟩
    by_contra hbehind
    rw [h.buffer.spare _ (Nat.not_lt.mp hbehind)] at helement
    cases helement
  · cases hcontent

theorem FastWith.deleted (h : FastWith length values array) (hholes : holesBelow values length < 2 ^ 24)
    (hfits : Fits cpointer32Bit available array (.delete key)) :
    StepOk cpointer32Bit (ecmaOpGeneralObjectDelete cpointer32Bit array key) ((content cpointer32Bit array).delete key) := by
  have hfits := hfits h.isFast
  dsimp only at hfits
  cases hget : ecmaOpObjectGetOwnProperty cpointer32Bit array key with
  | none =>
    have hnone : (content cpointer32Bit array).get key = none := hget
    rw [generalDelete_none hnone, Content.delete, hnone]
    exact ⟨.fast h hholes, rfl, rfl⟩
  | some property =>
    obtain ⟨hindex, hlt, element, helement, rfl⟩ := h.element hget
    have hsome : (content cpointer32Bit array).get key = some (element, true) := hget
    have hroom := hfits (by rw [hget]; rfl)
    rw [h.holes] at hroom
    obtain ⟨hdeleted, hcount⟩ := h.delete hlt (by rw [helement]; rfl)
    rw [delete_element h hindex hlt helement, Content.delete, hsome]
    dsimp only
    rw [if_pos rfl]
    refine ⟨.fast hdeleted (by omega), ?_, rfl⟩
    have hge := align_ge h.buffer.short
    have hsize := h.buffer.size
    dsimp only
    rw [hdeleted.content_eq]
    refine Content.ext h.length_eq.symm ?_ ?_
    · exact h.isWritable.symm
    · funext other
      show elements _ other = if other = key then none else (content cpointer32Bit array).get other
      rw [h.content_eq, elements_set hindex (by omega)]
      rfl

/-! ## The length -/

omit [DecidableEq κ] in
theorem readOnly_convert (hfast : array.isFast = true) : makeLengthReadOnly cpointer32Bit array =
    makeLengthReadOnly cpointer32Bit (ecmaFastArrayConvertToNormal cpointer32Bit array) := by
  rw [makeLengthReadOnly, makeLengthReadOnly, if_pos hfast, if_neg]
  rw [isFast_convert]
  exact Bool.false_ne_true

/-- The end of `ecma_op_array_object_set_length` for an array in fast mode. -/
theorem FastWith.restrict (h : FastWith length values array) (hholes : holesBelow values length < 2 ^ 24)
    {flags : LengthFlags} (hdirect : flags.writable = some false → DirectBelow cpointer32Bit values length)
    {expected : Content κ α} (hcontent : content cpointer32Bit array = expected) (completion : Completion) :
    StepOk cpointer32Bit
      (if flags.writable = some false then makeLengthReadOnly cpointer32Bit array else array, completion)
      (expected.restrict flags, completion) := by
  by_cases hflags : flags.writable = some false
  · obtain ⟨hok, hsame⟩ := h.convert (hdirect hflags)
    have hrestrict := (normal_restrict hok (hsame.trans hcontent) flags completion).stepOk
    rw [if_pos hflags] at hrestrict ⊢
    rw [readOnly_convert h.isFast]
    exact hrestrict
  · rw [Content.restrict, if_neg hflags, if_neg hflags]
    exact ⟨.fast h hholes, hcontent, rfl⟩

/-- Nothing stops a deletion from the end in fast mode. -/
theorem FastWith.stopLength_eq (h : FastWith length values array) {n : Nat} (old : Nat) :
    stopLength (content cpointer32Bit array).fixed n old = n := by
  refine FastArray.stopLength_eq (Or.inl rfl) fun i _ _ => ?_
  rw [Content.fixed, h.content_eq]
  dsimp only
  cases hget : elements values (.number (BitVec.ofNat 32 i) : Key κ) with
  | none => rfl
  | some property =>
    rw [Option.any_some, elements_configurable hget]
    rfl

/-- The slots after a new length are the content after it. -/
theorem content_resized (h : FastWith length values array) {newLength : Nat} (h' : FastWith newLength values' array')
    (hslots : ∀ j, values'.getD j none = if j < newLength then values.getD j none else none) :
    content cpointer32Bit array' = (content cpointer32Bit array).truncate newLength := by
  rw [h.content_eq, h'.content_eq]
  refine Content.ext rfl rfl ?_
  funext key
  show elements values' key = if key.IsIndex ∧ newLength ≤ ecmaStringGetArrayIndex key then none else elements values key
  rw [elements, elements]
  by_cases hindex : key.IsIndex
  · rw [if_pos hindex, if_pos hindex, hslots]
    by_cases hlt : ecmaStringGetArrayIndex key < newLength
    · rw [if_pos hlt, if_neg (fun hboth => Nat.not_le.mpr hlt hboth.2)]
    · rw [if_neg hlt, if_pos ⟨hindex, Nat.not_lt.mp hlt⟩]
      rfl
  · rw [if_neg hindex, if_neg hindex, if_neg (fun hboth => hindex hboth.1)]

/-- A new length behind the end. -/
theorem FastWith.longer (h : FastWith length values array) {n : BitVec 32}
    (hlt : length < n.toNat) {flags : LengthFlags}
    (hgrow : GrowFits cpointer32Bit array (n.toNat - length) (available.toNat < fastArrayAlignLength n.toNat * valueSize))
    (hdirect : flags.writable = some false → DirectBelow cpointer32Bit values n.toNat)
    (hset : ecmaFastArraySetLength cpointer32Bit available array n.toNat = some array') (completion : Completion) :
    StepOk cpointer32Bit (if flags.writable = some false then
        makeLengthReadOnly cpointer32Bit { array' with length := n.toNat } else { array' with length := n.toNat }, completion)
      (((content cpointer32Bit array).truncate n.toNat).restrict flags, completion) := by
  have hn := n.isLt
  rw [GrowFits] at hgrow
  by_cases hmany : array.tooManyHoles (n.toNat - length) = true
  · rw [if_pos hmany] at hgrow
    rw [ecmaFastArraySetLength, h.length_eq, if_neg (by omega), if_pos hmany, Option.some.injEq] at hset
    obtain ⟨hok, hsame⟩ := h.convert_direct hgrow
    have hle : (ecmaFastArrayConvertToNormal cpointer32Bit array).length ≤ n.toNat := by
      have hlength := congrArg Content.length hsame
      have hold := h.length_eq
      change (ecmaFastArrayConvertToNormal cpointer32Bit array).length = array.length at hlength
      omega
    obtain ⟨hlonger, hcontent⟩ := normal_lengthen hok hle (by rw [uint32Max]; omega)
    rw [← hset]
    rw [hsame] at hcontent
    exact (normal_restrict hlonger hcontent flags completion).stepOk
  · rw [if_neg hmany, h.holes] at hgrow
    cases hgrow with
    | inl hfit =>
      obtain ⟨values', hfast, hslots, hcount⟩ := h.lengthen_slots hlt (Bool.eq_false_iff.mpr hmany) hfit hset
      have hsame : ({ array' with length := n.toNat } : ArrayObject κ α) = array' := by
        rw [hfast.array_eq]
        rfl
      rw [hsame]
      refine hfast.restrict (by omega) (fun hflags i hi hbehind => ?_) (content_resized h hfast fun j => ?_) completion
      · rw [hslots]
        exact hdirect hflags i hi hbehind
      · rw [hslots]
        split
        · rfl
        · exact h.buffer.spare j (by omega)
    | inr hends =>
      rw [ecmaFastArraySetLength, h.length_eq, if_neg (by omega), if_neg hmany, ecmaFastArrayExtend, if_pos hends] at hset
      cases hset

theorem FastWith.setLength (h : FastWith length values array) (hholes : holesBelow values length < 2 ^ 24)
    {newLen : Option (BitVec 32)} {flags : LengthFlags} (hfits : LengthFits cpointer32Bit available array newLen flags)
    (hset : ecmaOpArrayObjectSetLength cpointer32Bit available array newLen flags = some (array', completion)) :
    StepOk cpointer32Bit (array', completion) ((content cpointer32Bit array).setLength newLen flags) := by
  have hwritable := h.isWritable
  have hcontentLength : (content cpointer32Bit array).length = length := h.length_eq
  have hcontentWritable : (content cpointer32Bit array).writable = true := hwritable
  cases newLen with
  | none =>
    cases hset
    exact ⟨.fast h hholes, rfl, rfl⟩
  | some n =>
    rw [Content.setLength, hcontentLength, hcontentWritable]
    dsimp only
    by_cases hrefused : flags.refused = true
    · rw [ecmaOpArrayObjectSetLength, if_pos hrefused] at hset
      rw [if_pos hrefused]
      cases hset
      exact ⟨.fast h hholes, rfl, rfl⟩
    · obtain ⟨hgrow, hdirect⟩ := hfits n rfl (Bool.eq_false_iff.mpr hrefused)
      rw [h.length_eq] at hgrow
      rw [Direct, h.values_eq] at hdirect
      rw [if_neg hrefused]
      by_cases hsame : n.toNat = length
      · rw [setLength_same available hrefused (hsame.trans h.length_eq.symm), hwritable,
          if_neg (fun hboth => Bool.noConfusion hboth.2)] at hset
        rw [if_pos hsame, if_neg (fun hboth => Bool.noConfusion hboth.2)]
        rw [hsame] at hdirect
        cases hset
        exact h.restrict hholes hdirect rfl .true
      · rw [ecmaOpArrayObjectSetLength, h.length_eq, if_neg hrefused, if_neg hsame, hwritable, if_neg (by decide)] at hset
        rw [if_neg hsame, if_neg (by decide), h.stopLength_eq]
        by_cases hlt : n.toNat < length
        · obtain ⟨values', hfast, hle, hslots⟩ := h.truncate hlt
          rw [if_pos hlt, ecmaDeleteArrayProperties, if_pos h.isFast] at hset
          cases hset
          refine hfast.restrict (by omega) (fun hflags i hi hbehind => ?_) (content_resized h hfast hslots) _
          rw [hslots, if_pos hi]
          exact hdirect hflags i hi hbehind
        · rw [if_neg hlt, if_pos h.isFast] at hset
          obtain ⟨array1, hextend, hset⟩ := Option.bind_eq_some_iff.mp hset
          rw [← Option.some.inj hset]
          exact h.longer (by omega) (hgrow (by omega)) hdirect hextend _

/-! ## Steps -/

/-- An operation on an array in normal mode. -/
theorem NormalOk.step (h : NormalOk cpointer32Bit array) (op : Op κ α)
    (hstep : step cpointer32Bit available array op = some (array', completion)) :
    StepOk cpointer32Bit (array', completion) ((content cpointer32Bit array).step op) := by
  have hnot : ¬ array.isFast = true := by
    rw [h.normal]
    exact Bool.false_ne_true
  have hsetLength : ∀ {newLen flags}, ecmaOpArrayObjectSetLength cpointer32Bit available array newLen flags =
      some (array', completion) →
      StepOk cpointer32Bit (array', completion) ((content cpointer32Bit array).setLength newLen flags) := by
    intro newLen flags hset
    obtain ⟨result, hresult, hnormal⟩ := normal_setLength h available newLen flags
    rw [hresult] at hset
    cases hset
    exact hnormal.stepOk
  cases op with
  | put key value =>
    rw [FastArray.step, ecmaOpObjectPut, if_neg hnot, Option.some.injEq] at hstep
    rw [← hstep]
    exact (normal_put h key value).stepOk
  | define key value configurable =>
    rw [FastArray.step, ecmaOpArrayObjectDefineOwnProperty, if_neg hnot, Option.some.injEq] at hstep
    rw [← hstep]
    exact (normal_define h key value configurable).stepOk
  | delete key =>
    rw [FastArray.step, Option.some.injEq] at hstep
    rw [← hstep]
    exact (normal_delete h key).stepOk
  | putLength newLen =>
    rw [FastArray.step, putLength] at hstep
    rw [Content.step, Content.putLength]
    have hwritable : (content cpointer32Bit array).writable = array.isWritable := rfl
    by_cases hwrite : array.isWritable = true
    · rw [if_pos hwrite] at hstep
      rw [hwritable, if_pos hwrite]
      exact hsetLength hstep
    · rw [if_neg hwrite] at hstep
      rw [hwritable, if_neg hwrite]
      cases hstep
      exact ⟨.normal h, rfl, rfl⟩
  | setLength newLen flags => exact hsetLength hstep
  | convert =>
    rw [FastArray.step, if_neg hnot] at hstep
    cases hstep
    exact ⟨.normal h, rfl, rfl⟩

/-- An operation on an array in fast mode. -/
theorem FastWith.step (h : FastWith length values array) (hholes : holesBelow values length < 2 ^ 24) {op : Op κ α}
    (hfits : Fits cpointer32Bit available array op)
    (hstep : step cpointer32Bit available array op = some (array', completion)) :
    StepOk cpointer32Bit (array', completion) ((content cpointer32Bit array).step op) := by
  cases op with
  | put key value => exact h.put hholes (hfits h.isFast) hstep
  | define key value configurable => exact h.define hholes hfits hstep
  | delete key =>
    rw [FastArray.step, Option.some.injEq] at hstep
    rw [← hstep]
    exact h.deleted hholes hfits
  | putLength newLen =>
    rw [FastArray.step, putLength, if_pos h.isWritable] at hstep
    rw [Content.step, Content.putLength, if_pos (show (content cpointer32Bit array).writable = true from h.isWritable)]
    exact h.setLength hholes (hfits h.isFast) hstep
  | setLength newLen flags => exact h.setLength hholes (hfits h.isFast) hstep
  | convert =>
    rw [FastArray.step, if_pos h.isFast] at hstep
    obtain ⟨hok, hcontent⟩ := h.convert_direct (hfits h.isFast)
    cases hstep
    exact ⟨.normal hok, hcontent, rfl⟩

/-- An operation whose result can be represented does what it does to the content. -/
theorem Ok.step (h : Ok cpointer32Bit array) {op : Op κ α} (hfits : Fits cpointer32Bit available array op)
    (hstep : step cpointer32Bit available array op = some (array', completion)) :
    StepOk cpointer32Bit (array', completion) ((content cpointer32Bit array).step op) := by
  cases h with
  | fast hfast hholes => exact hfast.step hholes hfits hstep
  | normal hnormal => exact hnormal.step op hstep

end Steps

end FastArray
end JJS
