import JJS.PropertyStore.Lcache

/-!
# JJS.PropertyStore.Find

The invariant of the objects with their hashmaps and the lookup cache (`StoreOk`), and `ecma_find_named_property`: it finds
the property that the chain has under the name, whichever of the three answers, and changes no property (`find_correct`).
-/

namespace JJS
namespace PropertyStore

variable {κ α : Type} [DecidableEq κ] {strings : HeapStrings κ} {cpointer32Bit : Bool}

/-- Chains with different names, hashmaps that have the properties of their chains, and a cache for the properties that
have the flag. -/
structure StoreOk (strings : HeapStrings κ) (cpointer32Bit : Bool) (store : Store α) : Prop where
  chains : ∀ object, ChainOk strings (store.objects object).pairs
  separate : Separate store.objects
  hashmaps : ∀ object h, (store.objects object).hashmap = some h →
    HashmapOk strings (slots (store.objects object).pairs) h
  cache : CacheOk cpointer32Bit store.objects store.lcache

/-- The chains are the same other than for `ECMA_PROPERTY_FLAG_LCACHED`. -/
structure SameChain (pairs pairs' : List (Pair α)) : Prop where
  cps : pairs'.map Pair.cp = pairs.map Pair.cp
  slots : SameSlots (slots pairs) (slots pairs')

theorem SameChain.refl (pairs : List (Pair α)) : SameChain pairs pairs :=
  ⟨rfl, List.forall₂_same.mpr fun _ _ => ⟨rfl, rfl⟩⟩

theorem SameSlots.trans {a b c : List (Position × Property α)} (h : SameSlots a b) (h' : SameSlots b c) : SameSlots a c := by
  induction h generalizing c with
  | nil => exact h'
  | @cons x y _ _ hhead _ ih =>
    cases h' with
    | @cons _ z _ _ hhead' htail' =>
      refine List.Forall₂.cons ⟨hhead'.1.trans hhead.1, ?_⟩ (ih htail')
      rw [hhead'.2, hhead.2]

theorem SameChain.trans {a b c : List (Pair α)} (h : SameChain a b) (h' : SameChain b c) : SameChain a c :=
  ⟨h'.cps.trans h.cps, h.slots.trans h'.slots⟩

theorem SameChain.flag (pairs : List (Pair α)) (position : Position) (isLcached : Bool) :
    SameChain pairs (pairs.map (setLcachedSlot position isLcached)) := by
  refine ⟨cps_setLcached position isLcached pairs, ?_⟩
  rw [slots_setLcached]
  exact sameSlots_flag position isLcached _

theorem SameChain.chainOk {pairs pairs' : List (Pair α)} (h : SameChain pairs pairs') (hok : ChainOk strings pairs) :
    ChainOk strings pairs' := by
  refine ⟨?_, ?_, h.slots.pairwise hok.names⟩
  · rw [h.cps]
    exact hok.nonzero
  · rw [h.cps]
    exact hok.distinct

/-- Only flags of the cache differ. -/
def Reflagged (objects objects' : Nat → Object α) : Prop :=
  ∀ object, (objects' object).hashmap = (objects object).hashmap ∧ SameChain (objects object).pairs (objects' object).pairs

theorem Reflagged.flag (objects : Nat → Object α) (position : Position) (isLcached : Bool) :
    Reflagged objects (ecmaSetPropertyLcached position isLcached objects) :=
  fun object => ⟨rfl, SameChain.flag (objects object).pairs position isLcached⟩

theorem Reflagged.trans {a b c : Nat → Object α} (h : Reflagged a b) (h' : Reflagged b c) : Reflagged a c :=
  fun object => ⟨(h' object).1.trans (h object).1, (h object).2.trans (h' object).2⟩

theorem StoreOk.distinct {store : Store α} (h : StoreOk strings cpointer32Bit store) (object : Nat) :
    ((store.objects object).pairs.map Pair.cp).Nodup := (h.chains object).distinct

theorem Reflagged.separate {objects objects' : Nat → Object α} (h : Reflagged objects objects') (hseparate : Separate objects) :
    Separate objects' := by
  intro object object' cp hin hin'
  rw [(h object).2.cps] at hin
  rw [(h object').2.cps] at hin'
  exact hseparate object object' cp hin hin'

theorem StoreOk.reflag {store : Store α} (h : StoreOk strings cpointer32Bit store) {objects' : Nat → Object α}
    {lcache' : Lcache} (hsame : Reflagged store.objects objects') (hcache : CacheOk cpointer32Bit objects' lcache') :
    StoreOk strings cpointer32Bit ⟨objects', lcache'⟩ := by
  refine ⟨fun object => (hsame object).2.chainOk (h.chains object), hsame.separate h.separate, ?_, hcache⟩
  intro object hashmap hhashmap
  have hsome : (objects' object).hashmap = some hashmap := hhashmap
  rw [(hsame object).1] at hsome
  exact (h.hashmaps object hashmap hsome).same (hsame object).2.slots

/-! ## Insertion into the cache -/

theorem insert_storeOk {store : Store α} (h : StoreOk strings cpointer32Bit store) {object : Nat} {position : Position}
    {property : Property α} (hslot : (position, property) ∈ slots (store.objects object).pairs)
    (hflag : property.lcached = false) :
    StoreOk strings cpointer32Bit (ecmaLcacheInsert cpointer32Bit store object property.name.cp position) ∧
      Reflagged store.objects (ecmaLcacheInsert cpointer32Bit store object property.name.cp position).objects := by
  have honce := h.cache.once
  -- the property has no entry yet
  have hnew : ∀ r entry, InRow (store.lcache r) entry → entry ≠ ⟨object, property.name.cp, position⟩ := by
    intro r entry hin heq
    obtain ⟨-, other, hother, hlcached, -⟩ := h.cache.held r entry hin
    rw [heq] at hother
    rw [slot_unique (h.distinct object) hother hslot, hflag] at hlcached
    cases hlcached
  rw [ecmaLcacheInsert]
  split
  · rename_i second hrow
    refine ⟨h.reflag (Reflagged.flag _ _ _) (h.cache.add h.separate h.distinct hslot ?_ ?_), Reflagged.flag _ _ _⟩
    · intro r entry
      rw [inRow_update]
      by_cases hr : r = ecmaLcacheRowIndex cpointer32Bit object property.name.cp
      · rw [if_pos hr, hr, hrow]
        simp only [InRow, Option.some.injEq, reduceCtorEq, false_or, true_and]
        rw [or_comm, eq_comm (a := entry)]
      · rw [if_neg hr]
        simp only [hr, false_and, or_false]
    · refine once_update honce ?_
      intro entry hentry hsecond
      cases hentry
      exact hnew _ _ (Or.inr (by rw [hrow]; exact hsecond)) rfl
  · rename_i first hrow
    refine ⟨h.reflag (Reflagged.flag _ _ _) (h.cache.add h.separate h.distinct hslot ?_ ?_), Reflagged.flag _ _ _⟩
    · intro r entry
      rw [inRow_update]
      by_cases hr : r = ecmaLcacheRowIndex cpointer32Bit object property.name.cp
      · rw [if_pos hr, hr, hrow]
        simp only [InRow, Option.some.injEq, reduceCtorEq, or_false, true_and]
        rw [eq_comm (a := entry)]
      · rw [if_neg hr]
        simp only [hr, false_and, or_false]
    · refine once_update honce ?_
      intro entry hentry hsecond
      cases hentry
      cases hsecond
      exact hnew _ _ (Or.inl (by rw [hrow])) rfl
  · rename_i first last hrow
    have hlast : InRow (store.lcache (ecmaLcacheRowIndex cpointer32Bit object property.name.cp)) last := by
      rw [hrow]
      exact Or.inr rfl
    have hfirst : InRow (store.lcache (ecmaLcacheRowIndex cpointer32Bit object property.name.cp)) first := by
      rw [hrow]
      exact Or.inl rfl
    have hdiffer : first ≠ last := by
      intro heq
      have hnot := honce (ecmaLcacheRowIndex cpointer32Bit object property.name.cp) first
      rw [hrow] at hnot
      exact hnot rfl (congrArg some heq.symm)
    have hremoved : CacheOk cpointer32Bit (ecmaSetPropertyLcached last.property false store.objects)
        (Function.update store.lcache (ecmaLcacheRowIndex cpointer32Bit object property.name.cp) ⟨some first, none⟩) := by
      refine h.cache.remove h.separate h.distinct hlast ?_ ?_
      · intro r entry
        rw [inRow_update]
        by_cases hr : r = ecmaLcacheRowIndex cpointer32Bit object property.name.cp
        · rw [if_pos hr, hr, hrow]
          simp only [InRow, Option.some.injEq, reduceCtorEq, or_false]
          constructor
          · intro heq
            rw [← heq]
            exact ⟨Or.inl rfl, hdiffer⟩
          · intro hboth
            cases hboth.1 with
            | inl heq => exact heq
            | inr heq => exact absurd heq.symm hboth.2
        · rw [if_neg hr]
          constructor
          · intro hin
            refine ⟨hin, ?_⟩
            intro heq
            rw [heq] at hin
            exact hr ((h.cache.held r last hin).1.symm.trans (h.cache.held _ last hlast).1)
          · exact And.left
      · refine once_update honce ?_
        intro entry _ hsecond
        cases hsecond
    have hreflagged := Reflagged.flag store.objects last.property false
    have hstore := h.reflag hreflagged hremoved
    have hposition : position ≠ last.property := by
      intro heq
      obtain ⟨-, other, hother, hlcached, -⟩ := h.cache.held _ last hlast
      rw [← heq] at hother
      have hobject := separate_slots h.separate hslot hother rfl
      rw [← hobject] at hother
      rw [slot_unique (h.distinct object) hother hslot, hflag] at hlcached
      cases hlcached
    have hslot' : (position, property) ∈ slots (ecmaSetPropertyLcached last.property false store.objects object).pairs := by
      rw [slots_flag, List.mem_map]
      refine ⟨(position, property), hslot, ?_⟩
      rw [flagSlot, if_neg hposition]
    refine ⟨hstore.reflag (Reflagged.flag _ _ _) (hremoved.add hstore.separate hstore.distinct hslot' ?_ ?_),
      hreflagged.trans (Reflagged.flag _ _ _)⟩
    · intro r entry
      rw [inRow_update, inRow_update]
      by_cases hr : r = ecmaLcacheRowIndex cpointer32Bit object property.name.cp
      · rw [if_pos hr, if_pos hr]
        simp only [InRow, Option.some.injEq, reduceCtorEq, or_false, hr, true_and]
        rw [or_comm, eq_comm (a := entry)]
      · rw [if_neg hr, if_neg hr]
        simp only [hr, false_and, or_false]
    · refine once_update honce ?_
      intro entry hentry hsecond
      cases hentry
      cases hsecond
      exact hnew _ _ hfirst rfl
/-! ## Lookups -/

/-- A property that was found is put into the cache. -/
theorem cacheFound_spec {store : Store α} (h : StoreOk strings cpointer32Bit store) (object : Nat) (position : Position) :
    StoreOk strings cpointer32Bit (cacheFound cpointer32Bit store object position) ∧
      Reflagged store.objects (cacheFound cpointer32Bit store object position).objects := by
  have hsame : Reflagged store.objects store.objects := fun object => ⟨rfl, SameChain.refl _⟩
  rw [cacheFound]
  split
  · exact ⟨h, hsame⟩
  · rename_i property hat
    split
    · exact ⟨h, hsame⟩
    · rename_i hflag
      exact insert_storeOk h ((propertyAt_iff (h.distinct object)).mp hat) (Bool.eq_false_iff.mpr hflag)

/-- The chains of the objects are the same other than for the flags of the cache. -/
def SameChains (objects objects' : Nat → Object α) : Prop :=
  ∀ object, SameChain (objects object).pairs (objects' object).pairs

/-- The object has another hashmap. -/
theorem StoreOk.hashmap {store : Store α} (h : StoreOk strings cpointer32Bit store) {object : Nat} {hashmap : Option Hashmap}
    (hhashmap : ∀ m, hashmap = some m → HashmapOk strings (slots (store.objects object).pairs) m) :
    StoreOk strings cpointer32Bit
      { store with objects := Function.update store.objects object ⟨hashmap, (store.objects object).pairs⟩ } := by
  have hpairs : ∀ other, (Function.update store.objects object ⟨hashmap, (store.objects object).pairs⟩ other).pairs =
      (store.objects other).pairs := by
    intro other
    by_cases hother : other = object
    · rw [hother, Function.update_self]
    · rw [Function.update_of_ne hother]
  refine ⟨?_, ?_, ?_, ?_, ?_, h.cache.once⟩
  · intro other
    rw [hpairs]
    exact h.chains other
  · intro other other' cp
    rw [hpairs, hpairs]
    exact h.separate other other' cp
  · intro other m hm
    rw [hpairs]
    dsimp only at hm
    by_cases hother : other = object
    · rw [hother, Function.update_self] at hm
      rw [hother]
      exact hhashmap m hm
    · rw [Function.update_of_ne hother] at hm
      exact h.hashmaps other m hm
  · intro r entry hin
    dsimp only
    rw [hpairs]
    exact h.cache.held r entry hin
  · intro other position property
    rw [hpairs]
    exact h.cache.flagged other position property

/-- A lookup finds what the chain has under the name, and changes no property. -/
theorem find_correct {store : Store α} (h : StoreOk strings cpointer32Bit store) (alloc : Bool) (object : Nat) (name : Name) :
    ∃ store', ecmaFindNamedProperty strings cpointer32Bit alloc store object name =
        some (store', lookup strings (store.objects object).pairs name) ∧
      StoreOk strings cpointer32Bit store' ∧ SameChains store.objects store'.objects := by
  have hchain := h.chains object
  have hsame : SameChains store.objects store.objects := fun object => SameChain.refl _
  rw [ecmaFindNamedProperty]
  split
  · rename_i position hcached
    rw [cache_lookup h.cache hchain hcached]
    exact ⟨store, rfl, h, hsame⟩
  · dsimp only
    split
    · rename_i hashmap hhashmap
      rw [find_spec hchain (h.hashmaps object hashmap hhashmap) name]
      cases hlookup : lookup strings (store.objects object).pairs name with
      | none => exact ⟨store, rfl, h, hsame⟩
      | some position =>
        obtain ⟨hok, hreflagged⟩ := cacheFound_spec h object position
        exact ⟨_, rfl, hok, fun other => (hreflagged other).2⟩
    · rename_i hnone
      obtain ⟨created, hcreate, hcreated⟩ := @create_spec κ α strings _ alloc (fun slot hslot => hchain.pair_ne hslot)
        (slots_nodup hchain.distinct)
      have hfound : (findLoop strings name (store.objects object).pairs).1 = _ := findLoop_spec name _
      -- the object with a hash map, or without one
      have hpairs : ∀ hashmap, SameChains store.objects
          (Function.update store.objects object ⟨hashmap, (store.objects object).pairs⟩) := by
        intro hashmap other
        by_cases hother : other = object
        · rw [hother, Function.update_self]
          exact SameChain.refl _
        · rw [Function.update_of_ne hother]
          exact SameChain.refl _
      have hmissing : ∀ m, none = some m → HashmapOk strings (slots (store.objects object).pairs) m :=
        fun m hm => by cases hm
      rw [hfound]
      cases hlookup : lookup strings (store.objects object).pairs name with
      | none =>
        split
        · rw [hcreate]
          exact ⟨_, rfl, h.hashmap hcreated, hpairs created⟩
        · exact ⟨_, rfl, h.hashmap hmissing, hpairs none⟩
      | some position =>
        have hfinish : ∀ hashmap, (∀ m, hashmap = some m → HashmapOk strings (slots (store.objects object).pairs) m) → _ :=
          fun hashmap hmap => cacheFound_spec (h.hashmap hmap) object position
        split
        · rw [hcreate]
          obtain ⟨hok, hreflagged⟩ := hfinish created hcreated
          exact ⟨_, rfl, hok, fun other => (hpairs created other).trans (hreflagged other).2⟩
        · obtain ⟨hok, hreflagged⟩ := hfinish none hmissing
          exact ⟨_, rfl, hok, fun other => (hpairs none other).trans (hreflagged other).2⟩

end PropertyStore
end JJS
