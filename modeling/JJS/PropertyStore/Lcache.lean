import JJS.PropertyStore.Chain

/-!
# JJS.PropertyStore.Lcache

The lookup cache: its entries belong to the properties that have `ECMA_PROPERTY_FLAG_LCACHED`, each in its row
(`CacheOk`). A lookup in the cache finds the property that the chain has under the name (`cache_lookup`), and an insertion
keeps the cache so (`insert_cacheOk`).
-/

namespace JJS
namespace PropertyStore

variable {κ α : Type}

/-! ## Flags -/

/-- The properties when the flag of one is set or cleared. -/
def flagSlot (position : Position) (isLcached : Bool) (slot : Position × Property α) : Position × Property α :=
  if slot.1 = position then (slot.1, { slot.2 with lcached := isLcached }) else slot

theorem flagSlot_fst (position : Position) (isLcached : Bool) (slot : Position × Property α) :
    (flagSlot position isLcached slot).1 = slot.1 := by
  rw [flagSlot]
  split
  · rfl
  · rfl

theorem flagSlot_snd (position : Position) (isLcached : Bool) (slot : Position × Property α) :
    (flagSlot position isLcached slot).2 = { slot.2 with lcached := (flagSlot position isLcached slot).2.lcached } := by
  rw [flagSlot]
  split
  · rfl
  · rfl

theorem flagSlot_name (position : Position) (isLcached : Bool) (slot : Position × Property α) :
    (flagSlot position isLcached slot).2.name = slot.2.name := by
  rw [flagSlot]
  split
  · rfl
  · rfl

theorem slots_setLcachedSlot (position : Position) (isLcached : Bool) (pair : Pair α) :
    (setLcachedSlot position isLcached pair).slots = pair.slots.map (flagSlot position isLcached) := by
  obtain ⟨cp, first, second⟩ := pair
  obtain ⟨cp', isSecond⟩ := position
  rw [setLcachedSlot]
  by_cases hcp : cp = cp'
  · rw [if_pos hcp]
    cases isSecond <;> cases first <;> cases second <;> simp [Pair.slots, flagSlot, hcp]
  · rw [if_neg hcp]
    cases first <;> cases second <;> simp [Pair.slots, flagSlot, hcp]

theorem slots_setLcached (position : Position) (isLcached : Bool) (pairs : List (Pair α)) :
    slots (pairs.map (setLcachedSlot position isLcached)) = (slots pairs).map (flagSlot position isLcached) := by
  induction pairs with
  | nil => rfl
  | cons pair pairs ih => rw [List.map_cons, slots_cons, slots_cons, ih, slots_setLcachedSlot, List.map_append]

theorem cp_setLcachedSlot (position : Position) (isLcached : Bool) (pair : Pair α) :
    (setLcachedSlot position isLcached pair).cp = pair.cp := by
  rw [setLcachedSlot]
  split
  · dsimp only
    split
    · rfl
    · rfl
  · rfl

theorem cps_setLcached (position : Position) (isLcached : Bool) (pairs : List (Pair α)) :
    (pairs.map (setLcachedSlot position isLcached)).map Pair.cp = pairs.map Pair.cp := by
  rw [List.map_map]
  exact List.map_congr_left fun pair _ => cp_setLcachedSlot position isLcached pair

/-- The properties are the same other than for `ECMA_PROPERTY_FLAG_LCACHED`. -/
def SameSlots (a b : List (Position × Property α)) : Prop :=
  List.Forall₂ (fun x y : Position × Property α => y.1 = x.1 ∧ y.2 = { x.2 with lcached := y.2.lcached }) a b

theorem sameSlots_flag (position : Position) (isLcached : Bool) (props : List (Position × Property α)) :
    SameSlots props (props.map (flagSlot position isLcached)) := by
  rw [SameSlots, List.forall₂_map_right_iff]
  exact List.forall₂_same.mpr fun slot _ => ⟨flagSlot_fst _ _ slot, flagSlot_snd _ _ slot⟩

theorem SameSlots.fst {a b : List (Position × Property α)} (h : SameSlots a b) : b.map Prod.fst = a.map Prod.fst := by
  induction h with
  | nil => rfl
  | cons hhead _ ih => rw [List.map_cons, List.map_cons, hhead.1, ih]

theorem SameSlots.mem {a b : List (Position × Property α)} (h : SameSlots a b) {slot : Position × Property α}
    (hslot : slot ∈ b) : ∃ other ∈ a, slot.1 = other.1 ∧ slot.2.name = other.2.name := by
  induction h with
  | nil => cases hslot
  | @cons x y _ _ hhead _ ih =>
    cases List.mem_cons.mp hslot with
    | inl heq => exact ⟨x, List.mem_cons_self, by rw [heq]; exact ⟨hhead.1, by rw [hhead.2]⟩⟩
    | inr hin =>
      obtain ⟨other, hother, hsame⟩ := ih hin
      exact ⟨other, List.mem_cons_of_mem x hother, hsame⟩

theorem HashmapOk.same {strings : HeapStrings κ} {a b : List (Position × Property α)} {h : Hashmap}
    (hok : HashmapOk strings a h) (hsame : SameSlots a b) : HashmapOk strings b h := by
  obtain ⟨hashes, hhashes, hfiled⟩ := hok.filed
  refine ⟨hok.size, hok.length, ?_, hok.null, hok.positive, hok.unused, hashes, ?_, hfiled⟩
  · rw [hsame.fst]
    exact hok.items
  · intro slot hslot
    obtain ⟨other, hother, hfst, hname⟩ := hsame.mem hslot
    rw [hfst, hname]
    exact hhashes other hother

section Names

variable [DecidableEq κ] {strings : HeapStrings κ}

theorem SameSlots.pairwise {a b : List (Position × Property α)} (h : SameSlots a b)
    (hnames : a.Pairwise fun x y => sameName strings x.2.name y.2.name = false) :
    b.Pairwise fun x y => sameName strings x.2.name y.2.name = false := by
  induction h with
  | nil => exact List.Pairwise.nil
  | @cons x y a b hhead htail ih =>
    rw [List.pairwise_cons] at hnames ⊢
    refine ⟨?_, ih hnames.2⟩
    intro slot hslot
    obtain ⟨other, hother, -, hname⟩ := SameSlots.mem htail hslot
    have hhead' : y.2.name = x.2.name := by rw [hhead.2]
    rw [hhead', hname]
    exact hnames.1 other hother

end Names

/-! ## The cache -/

/-- An entry of a row. -/
def InRow (row : Row) (entry : CacheEntry) : Prop := row.first = some entry ∨ row.second = some entry

/-- The pairs of different objects are different. -/
def Separate (objects : Nat → Object α) : Prop :=
  ∀ object object' cp, cp ∈ (objects object).pairs.map Pair.cp → cp ∈ (objects object').pairs.map Pair.cp → object = object'

/-- The entries are those of the properties with the flag. -/
structure CacheOk (cpointer32Bit : Bool) (objects : Nat → Object α) (lcache : Lcache) : Prop where
  held : ∀ r entry, InRow (lcache r) entry → ecmaLcacheRowIndex cpointer32Bit entry.object entry.name = r ∧
    ∃ property, (entry.property, property) ∈ slots (objects entry.object).pairs ∧ property.lcached = true ∧
      property.name.cp = entry.name
  flagged : ∀ object position property, (position, property) ∈ slots (objects object).pairs → property.lcached = true →
    InRow (lcache (ecmaLcacheRowIndex cpointer32Bit object property.name.cp)) ⟨object, property.name.cp, position⟩
  once : ∀ r entry, (lcache r).first = some entry → (lcache r).second ≠ some entry

variable {cpointer32Bit : Bool} {objects : Nat → Object α} {lcache : Lcache}

theorem separate_slots (hseparate : Separate objects) {object object' : Nat} {a b : Position × Property α}
    (ha : a ∈ slots (objects object).pairs) (hb : b ∈ slots (objects object').pairs) (heq : a.1.pair = b.1.pair) :
    object = object' := by
  have hcp := mem_positions (List.mem_map_of_mem ha)
  have hcp' := mem_positions (List.mem_map_of_mem hb)
  rw [heq] at hcp
  exact hseparate object object' _ hcp hcp'

/-- The properties at one position are the same. -/
theorem slot_unique {pairs : List (Pair α)} (hdistinct : (pairs.map Pair.cp).Nodup) {position : Position}
    {property property' : Property α} (h : (position, property) ∈ slots pairs) (h' : (position, property') ∈ slots pairs) :
    property = property' := by
  rw [← propertyAt_iff hdistinct] at h h'
  rw [h] at h'
  exact Option.some.inj h'

/-- Two entries for one property are the same. -/
theorem CacheOk.inj (h : CacheOk cpointer32Bit objects lcache) (hseparate : Separate objects)
    (hdistinct : ∀ object, ((objects object).pairs.map Pair.cp).Nodup) {r r' : Nat} {entry entry' : CacheEntry}
    (hin : InRow (lcache r) entry) (hin' : InRow (lcache r') entry') (heq : entry.property = entry'.property) :
    entry = entry' := by
  obtain ⟨-, property, hslot, -, hname⟩ := h.held r entry hin
  obtain ⟨-, property', hslot', -, hname'⟩ := h.held r' entry' hin'
  have hobject : entry.object = entry'.object := separate_slots hseparate hslot hslot' (congrArg Position.pair heq)
  rw [heq, hobject] at hslot
  have hproperty := slot_unique (hdistinct _) hslot hslot'
  obtain ⟨object, name, position⟩ := entry
  obtain ⟨object', name', position'⟩ := entry'
  dsimp only at heq hobject hname hname'
  rw [← hname, ← hname', hproperty, heq, hobject]

/-- A lookup in the cache finds the property of the name in the chain. -/
theorem cache_lookup [DecidableEq κ] {strings : HeapStrings κ} {store : Store α}
    (h : CacheOk cpointer32Bit store.objects store.lcache) {object : Nat} {name : Name} {position : Position}
    (hchain : ChainOk strings (store.objects object).pairs)
    (hlookup : ecmaLcacheLookup cpointer32Bit store object name = some position) :
    lookup strings (store.objects object).pairs name = some position := by
  have hentry : ∀ entry, InRow (store.lcache (ecmaLcacheRowIndex cpointer32Bit object name.cp)) entry →
      entryIs store object name entry = true → lookup strings (store.objects object).pairs name = some entry.property := by
    intro entry hin his
    obtain ⟨hobject, hname, hany⟩ := of_decide_eq_true his
    obtain ⟨-, property, hslot, -, hcp⟩ := h.held _ entry hin
    rw [hobject] at hslot
    rw [(propertyAt_iff hchain.distinct).mpr hslot, Option.any_some, decide_eq_true_iff] at hany
    have heq : property.name = name := by
      rw [hname] at hcp
      cases hp : property.name with
      | ptr cp =>
        rw [hp] at hany hcp
        cases name with
        | ptr cp' =>
          have hsame : cp = cp' := hcp
          rw [hsame]
        | direct type value => cases hany
      | direct type value =>
        rw [hp] at hany hcp
        cases name with
        | ptr cp' => cases hany
        | direct type' value' =>
          have hsame : value = value' := hcp
          cases hany
          rw [hsame]
    exact lookup_some hchain hslot (by rw [heq]; exact sameName_refl name)
  rw [ecmaLcacheLookup] at hlookup
  split at hlookup
  · rename_i entry hfilter
    cases hlookup
    obtain ⟨hfirst, his⟩ := Option.filter_eq_some_iff.mp hfilter
    exact hentry entry (Or.inl hfirst) his
  · obtain ⟨entry, hfilter, heq⟩ := Option.map_eq_some_iff.mp hlookup
    obtain ⟨hsecond, his⟩ := Option.filter_eq_some_iff.mp hfilter
    rw [← heq]
    exact hentry entry (Or.inr hsecond) his

/-! ## Changes of the cache -/

theorem slots_flag (position : Position) (isLcached : Bool) (objects : Nat → Object α) (object : Nat) :
    slots (ecmaSetPropertyLcached position isLcached objects object).pairs =
      (slots (objects object).pairs).map (flagSlot position isLcached) :=
  slots_setLcached position isLcached _

/-- A property that had no entry gets one. -/
theorem CacheOk.add (h : CacheOk cpointer32Bit objects lcache) (hseparate : Separate objects)
    (hdistinct : ∀ object, ((objects object).pairs.map Pair.cp).Nodup) {object : Nat} {position : Position}
    {property : Property α} (hslot : (position, property) ∈ slots (objects object).pairs) {lcache' : Lcache}
    (hrow : ∀ r entry, InRow (lcache' r) entry ↔ InRow (lcache r) entry ∨
      r = ecmaLcacheRowIndex cpointer32Bit object property.name.cp ∧ entry = ⟨object, property.name.cp, position⟩)
    (honce : ∀ r entry, (lcache' r).first = some entry → (lcache' r).second ≠ some entry) :
    CacheOk cpointer32Bit (ecmaSetPropertyLcached position true objects) lcache' := by
  refine ⟨?_, ?_, honce⟩
  · intro r entry hin
    cases (hrow r entry).mp hin with
    | inl hold =>
      obtain ⟨hindex, other, hother, hlcached, hname⟩ := h.held r entry hold
      refine ⟨hindex, (flagSlot position true (entry.property, other)).2, ?_, ?_, ?_⟩
      · rw [slots_flag, List.mem_map]
        exact ⟨(entry.property, other), hother, Prod.ext (flagSlot_fst _ _ _) rfl⟩
      · rw [flagSlot]
        split
        · rfl
        · exact hlcached
      · rw [flagSlot_name]
        exact hname
    | inr hnew =>
      rw [hnew.2, hnew.1]
      refine ⟨rfl, { property with lcached := true }, ?_, rfl, rfl⟩
      rw [slots_flag, List.mem_map]
      refine ⟨(position, property), hslot, ?_⟩
      rw [flagSlot, if_pos rfl]
  · intro object' position' property' hin hlcached
    rw [slots_flag, List.mem_map] at hin
    obtain ⟨slot, hslot', heq⟩ := hin
    rw [hrow]
    rw [flagSlot] at heq
    split at heq
    · rename_i hposition
      have hobject := separate_slots hseparate hslot' hslot (congrArg Position.pair hposition)
      rw [hobject] at hslot'
      have hproperty := slot_unique (hdistinct object) (show (position, slot.2) ∈ _ by rw [← hposition]; exact hslot') hslot
      cases heq
      refine Or.inr ⟨?_, ?_⟩
      · rw [hobject, hproperty]
      · rw [hobject, hproperty, hposition]
    · rw [heq] at hslot'
      exact Or.inl (h.flagged object' position' property' hslot' hlcached)

/-- A property loses its entry. -/
theorem CacheOk.remove (h : CacheOk cpointer32Bit objects lcache) (hseparate : Separate objects)
    (hdistinct : ∀ object, ((objects object).pairs.map Pair.cp).Nodup) {r₀ : Nat} {last : CacheEntry}
    (hlast : InRow (lcache r₀) last) {lcache' : Lcache}
    (hrow : ∀ r entry, InRow (lcache' r) entry ↔ InRow (lcache r) entry ∧ entry ≠ last)
    (honce : ∀ r entry, (lcache' r).first = some entry → (lcache' r).second ≠ some entry) :
    CacheOk cpointer32Bit (ecmaSetPropertyLcached last.property false objects) lcache' := by
  refine ⟨?_, ?_, honce⟩
  · intro r entry hin
    obtain ⟨hold, hne⟩ := (hrow r entry).mp hin
    obtain ⟨hindex, other, hother, hlcached, hname⟩ := h.held r entry hold
    have hposition : entry.property ≠ last.property := fun heq => hne (h.inj hseparate hdistinct hold hlast heq)
    refine ⟨hindex, other, ?_, hlcached, hname⟩
    rw [slots_flag, List.mem_map]
    refine ⟨(entry.property, other), hother, ?_⟩
    rw [flagSlot, if_neg hposition]
  · intro object position property hin hlcached
    rw [slots_flag, List.mem_map] at hin
    obtain ⟨slot, hslot, heq⟩ := hin
    rw [hrow]
    rw [flagSlot] at heq
    split at heq
    · cases heq
      cases hlcached
    · rename_i hposition
      rw [heq] at hslot hposition
      refine ⟨h.flagged object position property hslot hlcached, ?_⟩
      intro hentry
      exact hposition (congrArg CacheEntry.property hentry)

theorem inRow_update (lcache : Lcache) (r₀ : Nat) (row : Row) (r : Nat) (entry : CacheEntry) :
    InRow (Function.update lcache r₀ row r) entry ↔ if r = r₀ then InRow row entry else InRow (lcache r) entry := by
  by_cases hr : r = r₀
  · rw [hr, Function.update_self, if_pos rfl]
  · rw [Function.update_of_ne hr, if_neg hr]

theorem once_update {lcache : Lcache} {r₀ : Nat} {row : Row}
    (h : ∀ r entry, (lcache r).first = some entry → (lcache r).second ≠ some entry)
    (hrow : ∀ entry, row.first = some entry → row.second ≠ some entry) (r : Nat) (entry : CacheEntry)
    (hfirst : (Function.update lcache r₀ row r).first = some entry) :
    (Function.update lcache r₀ row r).second ≠ some entry := by
  by_cases hr : r = r₀
  · rw [hr, Function.update_self] at hfirst ⊢
    exact hrow entry hfirst
  · rw [Function.update_of_ne hr] at hfirst ⊢
    exact h r entry hfirst

end PropertyStore
end JJS
