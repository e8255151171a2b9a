import JJS.PropertyStore.Find

/-!
# JJS.PropertyStore.Delete

Deletions. While properties of an object are deleted, the hashmap has those that remain, as long as it is not to be made
again, and the cache has no entry for the others (`DeletingOk`); this is what one deletion keeps (`deleteSlot_spec`), and
what makes the objects right again at the end (`finish_spec`).
-/

namespace JJS
namespace PropertyStore

variable {κ α : Type} {strings : HeapStrings κ} {cpointer32Bit : Bool}

/-! ## One property -/

/-- What a deletion has changed so far goes with the properties of the object that remain. -/
structure DeletingOk (strings : HeapStrings κ) (store : Store α) (object : Nat) (deleting : Deleting)
    (remaining : List (Position × Property α)) : Prop where
  hashmap : match deleting.status with
    | .noHashmap => deleting.hashmap = none
    | .hasHashmap => ∃ h, deleting.hashmap = some h ∧ HashmapOk strings remaining h
    | .recreateHashmap => True
  nodup : (remaining.map Prod.fst).Nodup
  lcache : ∀ r entry, InRow (deleting.lcache r) entry ↔
    InRow (store.lcache r) entry ∧ (entry.object = object → entry.property ∈ remaining.map Prod.fst)
  once : ∀ r entry, (deleting.lcache r).first = some entry → (deleting.lcache r).second ≠ some entry

theorem DeletingOk.perm {store : Store α} {object : Nat} {deleting : Deleting} {a b : List (Position × Property α)}
    (h : DeletingOk strings store object deleting a) (hperm : a.Perm b) : DeletingOk strings store object deleting b := by
  have hfst := hperm.map Prod.fst
  refine ⟨?_, hfst.nodup_iff.mp h.nodup, ?_, h.once⟩
  · have hhashmap := h.hashmap
    split
    · rename_i hstatus
      rw [hstatus] at hhashmap
      exact hhashmap
    · rename_i hstatus
      rw [hstatus] at hhashmap
      obtain ⟨m, hm, hok⟩ := hhashmap
      exact ⟨m, hm, hok.perm hperm⟩
    · trivial
  · intro r entry
    rw [h.lcache, hfst.mem_iff]

section Operations

variable [DecidableEq κ] {store : Store α} {object : Nat} {deleting : Deleting}

/-- Before a deletion all properties remain. -/
theorem start_ok (h : StoreOk strings cpointer32Bit store) (object : Nat) :
    DeletingOk strings store object (.start store object) (slots (store.objects object).pairs) := by
  refine ⟨?_, slots_nodup (h.distinct object), ?_, h.cache.once⟩
  · cases hhashmap : (store.objects object).hashmap with
    | none =>
      simp only [Deleting.start, hhashmap, Option.isSome_none, Bool.false_eq_true, if_false]
    | some m =>
      simp only [Deleting.start, hhashmap, Option.isSome_some, if_true]
      exact ⟨m, rfl, h.hashmaps object m hhashmap⟩
  · intro r entry
    constructor
    · intro hin
      refine ⟨hin, ?_⟩
      intro hobject
      obtain ⟨-, property, hslot, -⟩ := h.cache.held r entry hin
      rw [hobject] at hslot
      exact List.mem_map_of_mem hslot
    · exact And.left

/-- The cache without the entry of a property. -/
theorem free_spec (h : StoreOk strings cpointer32Bit store) {position : Position} {property : Property α}
    {rest : List (Position × Property α)}
    (hok : DeletingOk strings store object deleting ((position, property) :: rest))
    (hslot : (position, property) ∈ slots (store.objects object).pairs) :
    ∃ lcache, ecmaGcFreeProperty cpointer32Bit deleting.lcache object property position = some lcache ∧
      (∀ r entry, InRow (lcache r) entry ↔
        InRow (store.lcache r) entry ∧ (entry.object = object → entry.property ∈ rest.map Prod.fst)) ∧
      ∀ r entry, (lcache r).first = some entry → (lcache r).second ≠ some entry := by
  have hnodup := hok.nodup
  rw [List.map_cons, List.nodup_cons] at hnodup
  -- an entry of the cache for the position is the entry of this property
  have hat : ∀ r entry, InRow (store.lcache r) entry → entry.property = position →
      entry.object = object ∧ property.lcached = true ∧ property.name.cp = entry.name := by
    intro r entry hin hposition
    obtain ⟨-, other, hother, hlcached, hname⟩ := h.cache.held r entry hin
    rw [hposition] at hother
    have hobject := separate_slots h.separate hother hslot rfl
    rw [hobject] at hother
    have heq := slot_unique (h.distinct object) hother hslot
    rw [heq] at hlcached hname
    exact ⟨hobject, hlcached, hname⟩
  have hrest : ∀ r entry, InRow (deleting.lcache r) entry ∧ entry.property ≠ position ↔
      InRow (store.lcache r) entry ∧ (entry.object = object → entry.property ∈ rest.map Prod.fst) := by
    intro r entry
    rw [hok.lcache, List.map_cons]
    constructor
    · intro hboth
      refine ⟨hboth.1.1, ?_⟩
      intro hobject
      exact (List.mem_cons.mp (hboth.1.2 hobject)).resolve_left hboth.2
    · intro hboth
      refine ⟨⟨hboth.1, fun hobject => List.mem_cons_of_mem _ (hboth.2 hobject)⟩, ?_⟩
      intro hposition
      have hin := hboth.2 (hat r entry hboth.1 hposition).1
      rw [hposition] at hin
      exact hnodup.1 hin
  rw [ecmaGcFreeProperty]
  cases hlcached : property.lcached with
  | false =>
    rw [if_neg Bool.false_ne_true]
    refine ⟨_, rfl, ?_, hok.once⟩
    intro r entry
    rw [← hrest]
    constructor
    · intro hin
      refine ⟨hin, ?_⟩
      intro hposition
      have hflag := (hat r entry ((hok.lcache r entry).mp hin).1 hposition).2.1
      rw [hlcached] at hflag
      cases hflag
    · exact And.left
  | true =>
    rw [if_pos rfl, ecmaLcacheInvalidate]
    have hentry : InRow (deleting.lcache (ecmaLcacheRowIndex cpointer32Bit object property.name.cp))
        ⟨object, property.name.cp, position⟩ := by
      rw [hok.lcache]
      exact ⟨h.cache.flagged object position property hslot hlcached, fun _ => List.mem_cons_self⟩
    have honly : ∀ r entry, InRow (deleting.lcache r) entry → entry.property = position →
        r = ecmaLcacheRowIndex cpointer32Bit object property.name.cp ∧ entry = ⟨object, property.name.cp, position⟩ := by
      intro r entry hin hposition
      have hin' := ((hok.lcache r entry).mp hin).1
      have hindex := (h.cache.held r entry hin').1
      obtain ⟨hobject, -, hname⟩ := hat r entry hin' hposition
      rw [hobject, ← hname] at hindex
      refine ⟨hindex.symm, ?_⟩
      rw [← hobject, hname, ← hposition]
    -- a row without the entry of the property
    have hclear : ∀ row : Row,
        (∀ entry, InRow row entry ↔
          InRow (deleting.lcache (ecmaLcacheRowIndex cpointer32Bit object property.name.cp)) entry ∧
            entry.property ≠ position) →
        ∀ r entry,
          InRow (Function.update deleting.lcache (ecmaLcacheRowIndex cpointer32Bit object property.name.cp) row r) entry ↔
            InRow (store.lcache r) entry ∧ (entry.object = object → entry.property ∈ rest.map Prod.fst) := by
      intro row hrow r entry
      rw [inRow_update, ← hrest]
      by_cases hr : r = ecmaLcacheRowIndex cpointer32Bit object property.name.cp
      · rw [if_pos hr, hr]
        exact hrow entry
      · rw [if_neg hr]
        exact ⟨fun hin => ⟨hin, fun hposition => hr (honly r entry hin hposition).1⟩, And.left⟩
    have honce := hok.once (ecmaLcacheRowIndex cpointer32Bit object property.name.cp)
    cases hrow : deleting.lcache (ecmaLcacheRowIndex cpointer32Bit object property.name.cp) with
    | mk first second =>
      rw [hrow] at hentry honce hclear
      have honly' := honly (ecmaLcacheRowIndex cpointer32Bit object property.name.cp)
      rw [hrow] at honly'
      dsimp only at honce ⊢
      split
      · rename_i hfirst
        obtain ⟨held, hheld, hposition⟩ := (Option.any_eq_true _ _).mp hfirst
        have heq := (honly' held (Or.inl hheld) (of_decide_eq_true hposition)).2
        rw [heq] at hheld
        refine ⟨_, rfl, hclear _ ?_, once_update hok.once fun entry hnone => by cases hnone⟩
        intro entry
        constructor
        · intro hin
          have hsecond : second = some entry := hin.resolve_left fun h => by cases h
          refine ⟨Or.inr hsecond, ?_⟩
          intro hposition'
          rw [(honly' entry (Or.inr hsecond) hposition').2] at hsecond
          exact honce _ hheld hsecond
        · intro hboth
          cases hboth.1 with
          | inl hin =>
            have hin' : first = some entry := hin
            rw [hheld] at hin'
            rw [← Option.some.inj hin'] at hboth
            exact absurd rfl hboth.2
          | inr hin => exact Or.inr hin
      · rename_i hfirst
        have hother : ∀ entry, first = some entry → entry.property ≠ position := by
          intro entry hin hposition
          exact hfirst ((Option.any_eq_true _ _).mpr ⟨entry, hin, decide_eq_true hposition⟩)
        have hsecond : second = some ⟨object, property.name.cp, position⟩ :=
          hentry.resolve_left fun hin => hother _ hin rfl
        rw [if_pos (by rw [hsecond, Option.any_some]; exact decide_eq_true rfl)]
        refine ⟨_, rfl, hclear _ ?_, once_update hok.once fun entry _ hnone => by cases hnone⟩
        intro entry
        constructor
        · intro hin
          have hin' : first = some entry := hin.resolve_right fun h => by cases h
          exact ⟨Or.inl hin', hother entry hin'⟩
        · intro hboth
          cases hboth.1 with
          | inl hin => exact Or.inl hin
          | inr hin =>
            have hin' : second = some entry := hin
            rw [hsecond] at hin'
            rw [← Option.some.inj hin'] at hboth
            exact absurd rfl hboth.2

/-- A deletion takes one property out of the hashmap and the cache. -/
theorem deleteSlot_spec (h : StoreOk strings cpointer32Bit store) {position : Position} {property : Property α}
    {rest : List (Position × Property α)}
    (hok : DeletingOk strings store object deleting ((position, property) :: rest))
    (hslot : (position, property) ∈ slots (store.objects object).pairs) :
    ∃ deleting', deleteSlot strings cpointer32Bit object deleting property position = some deleting' ∧
      DeletingOk strings store object deleting' rest := by
  obtain ⟨lcache, hfree, hlcache, honce⟩ := free_spec h hok hslot
  have hnodup := hok.nodup
  rw [List.map_cons, List.nodup_cons] at hnodup
  have hhashmap := hok.hashmap
  obtain ⟨hashmap, status, cache⟩ := deleting
  dsimp only at hfree hhashmap
  rw [deleteSlot]
  dsimp only
  cases status with
  | noHashmap =>
    rw [hhashmap]
    dsimp only
    rw [hfree]
    exact ⟨⟨none, .noHashmap, lcache⟩, rfl, rfl, hnodup.2, hlcache, honce⟩
  | recreateHashmap =>
    cases hashmap with
    | none =>
      dsimp only
      rw [hfree]
      exact ⟨⟨none, .recreateHashmap, lcache⟩, rfl, trivial, hnodup.2, hlcache, honce⟩
    | some m =>
      dsimp only
      rw [hfree]
      exact ⟨⟨some m, .recreateHashmap, lcache⟩, rfl, trivial, hnodup.2, hlcache, honce⟩
  | hasHashmap =>
    obtain ⟨m, hm, hmok⟩ := hhashmap
    obtain ⟨m', status', hdelete, hstatus⟩ := delete_spec hmok (List.Perm.refl _)
    rw [hm]
    dsimp only
    rw [hdelete, hfree]
    refine ⟨⟨some m', status', lcache⟩, rfl, ?_, hnodup.2, hlcache, honce⟩
    cases hstatus with
    | inl hrecreate =>
      dsimp only
      rw [hrecreate]
      trivial
    | inr hhas =>
      dsimp only
      rw [hhas.1]
      exact ⟨m', rfl, hhas.2⟩

/-! ## The end of a deletion -/

theorem update_pairs (objects : Nat → Object α) (object : Nat) (hashmap : Option Hashmap) (pairs : List (Pair α))
    (other : Nat) : (Function.update objects object ⟨hashmap, pairs⟩ other).pairs =
      if other = object then pairs else (objects other).pairs := by
  by_cases hother : other = object
  · rw [hother, Function.update_self, if_pos rfl]
  · rw [Function.update_of_ne hother, if_neg hother]

/-- A chain with some of the properties is one too. -/
theorem ChainOk.sublist {pairs pairs' : List (Pair α)} (h : ChainOk strings pairs)
    (hcps : (pairs'.map Pair.cp).Sublist (pairs.map Pair.cp)) (hslots : (slots pairs').Sublist (slots pairs)) :
    ChainOk strings pairs' :=
  ⟨fun hzero => h.nonzero (hcps.subset hzero), h.distinct.sublist hcps, h.names.sublist hslots⟩

/-- After a deletion the object has the chain that remains, and a hashmap of it, if any. -/
theorem finish_spec (h : StoreOk strings cpointer32Bit store) (alloc : Bool) {pairs' : List (Pair α)}
    (hcps : (pairs'.map Pair.cp).Sublist ((store.objects object).pairs.map Pair.cp))
    (hslots : (slots pairs').Sublist (slots (store.objects object).pairs))
    (hok : DeletingOk strings store object deleting (slots pairs')) :
    ∃ store', finishDelete strings alloc store object deleting pairs' = some store' ∧
      (store'.objects object).pairs = pairs' ∧ (∀ other, other ≠ object → store'.objects other = store.objects other) ∧
      StoreOk strings cpointer32Bit store' := by
  have hchain := (h.chains object).sublist hcps hslots
  -- whichever hashmap the object has then
  have hfinish : ∀ hashmap, (∀ m, hashmap = some m → HashmapOk strings (slots pairs') m) →
      StoreOk strings cpointer32Bit ⟨Function.update store.objects object ⟨hashmap, pairs'⟩, deleting.lcache⟩ := by
    intro hashmap hmap
    refine ⟨?_, ?_, ?_, ?_, ?_, hok.once⟩
    · intro other
      rw [update_pairs]
      split
      · exact hchain
      · exact h.chains other
    · intro other other' cp hin hin'
      refine h.separate other other' cp ?_ ?_
      · rw [update_pairs] at hin
        split at hin
        · rename_i hother
          rw [hother]
          exact hcps.subset hin
        · exact hin
      · rw [update_pairs] at hin'
        split at hin'
        · rename_i hother
          rw [hother]
          exact hcps.subset hin'
        · exact hin'
    · intro other m hm
      rw [update_pairs]
      dsimp only at hm
      split
      · rename_i hother
        rw [hother, Function.update_self] at hm
        exact hmap m hm
      · rename_i hother
        rw [Function.update_of_ne hother] at hm
        exact h.hashmaps other m hm
    · intro r entry hin
      obtain ⟨hold, hremains⟩ := (hok.lcache r entry).mp hin
      obtain ⟨hindex, property, hslot, hflag⟩ := h.cache.held r entry hold
      refine ⟨hindex, property, ?_, hflag⟩
      rw [update_pairs]
      split
      · rename_i hobject
        obtain ⟨slot, hremaining, hposition⟩ := List.mem_map.mp (hremains hobject)
        have hin' : (entry.property, slot.2) ∈ slots pairs' := by
          rw [← hposition]
          exact hremaining
        rw [hobject] at hslot
        rw [← slot_unique (h.distinct object) (hslots.subset hin') hslot]
        exact hin'
      · exact hslot
    · intro other position property hin hlcached
      rw [update_pairs] at hin
      refine (hok.lcache _ _).mpr ?_
      split at hin
      · rename_i hother
        rw [hother]
        exact ⟨h.cache.flagged object position property (hslots.subset hin) hlcached, fun _ => List.mem_map_of_mem hin⟩
      · rename_i hother
        exact ⟨h.cache.flagged other position property hin hlcached, fun heq => absurd heq hother⟩
  have hothers : ∀ hashmap other, other ≠ object →
      Function.update store.objects object ⟨hashmap, pairs'⟩ other = store.objects other :=
    fun hashmap other hother => Function.update_of_ne hother _ _
  have hself : ∀ hashmap, (Function.update store.objects object ⟨hashmap, pairs'⟩ object).pairs = pairs' := by
    intro hashmap
    rw [Function.update_self]
  have hhashmap := hok.hashmap
  rw [finishDelete]
  cases hstatus : deleting.status with
  | noHashmap =>
    rw [hstatus] at hhashmap
    rw [if_neg (fun h => by cases h), hhashmap]
    exact ⟨_, rfl, hself none, hothers none, hfinish none fun m hm => by cases hm⟩
  | hasHashmap =>
    rw [hstatus] at hhashmap
    obtain ⟨m, hm, hmok⟩ := hhashmap
    rw [if_neg (fun h => by cases h), hm]
    refine ⟨_, rfl, hself (some m), hothers (some m), hfinish (some m) ?_⟩
    intro m' hm'
    rw [← Option.some.inj hm']
    exact hmok
  | recreateHashmap =>
    obtain ⟨created, hcreate, hcreated⟩ := @create_spec κ α strings pairs' alloc (fun slot hslot => hchain.pair_ne hslot)
      (slots_nodup hchain.distinct)
    rw [if_pos rfl, hcreate]
    exact ⟨_, rfl, hself created, hothers created, hfinish created hcreated⟩

end Operations

end PropertyStore
end JJS
