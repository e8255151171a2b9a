import JJS.PropertyStore.DeleteArray

/-!
# JJS.PropertyStore.Runs

Creations, lookups and deletions of properties in any order: the objects stay right (`Run.spec`), no operation gets stuck,
and a lookup finds the property that was created last under the name and not deleted since (`find_run`).
-/

namespace JJS
namespace PropertyStore

variable {κ α : Type} [DecidableEq κ] {strings : HeapStrings κ} {cpointer32Bit : Bool} {store : Store α} {object : Nat}

/-! ## Deletion -/

/-- The chain without the property at a position. -/
theorem deleteLoop_spec (h : StoreOk strings cpointer32Bit store) {position : Position} {property : Property α} :
    ∀ (pairs : List (Pair α)) (deleting : Deleting) (done : List (Position × Property α)),
    DeletingOk strings store object deleting (slots pairs ++ done) → (pairs.map Pair.cp).Nodup →
    slots pairs ⊆ slots (store.objects object).pairs → (position, property) ∈ slots pairs →
    ∃ deleting' pairs', deleteLoop strings cpointer32Bit object position deleting pairs = some (deleting', pairs') ∧
      DeletingOk strings store object deleting' (slots pairs' ++ done) ∧
      (slots pairs).Perm ((position, property) :: slots pairs') ∧ (slots pairs').Sublist (slots pairs) ∧
      (pairs'.map Pair.cp).Sublist (pairs.map Pair.cp) := by
  intro pairs
  induction pairs with
  | nil =>
    intro deleting done _ _ _ hin
    cases hin
  | cons pair pairs ih =>
    intro deleting done hok hdistinct hslots hin
    rw [deleteLoop]
    by_cases hcp : pair.cp = position.pair
    · have hat : (if position.second then pair.second else pair.first) = some property := by
        rw [slots_cons, List.mem_append] at hin
        cases hin with
        | inl hhead => exact (mem_slots_pair.mp hhead).2
        | inr htail =>
          have hcps := mem_positions (List.mem_map_of_mem htail)
          rw [List.map_cons, List.nodup_cons, hcp] at hdistinct
          exact absurd hcps hdistinct.1
      -- what stays of the pair, and the rest
      obtain ⟨pair', hpair', hperm, hsub, hcp'⟩ : ∃ pair' : Pair α,
          (if position.second then { pair with second := none } else { pair with first := none }) = pair' ∧
          pair.slots.Perm ((position, property) :: pair'.slots) ∧ pair'.slots.Sublist pair.slots ∧ pair'.cp = pair.cp := by
        obtain ⟨cp, first, second⟩ := pair
        obtain ⟨cp', isSecond⟩ := position
        dsimp only at hcp hat
        rw [← hcp]
        cases isSecond with
        | false =>
          rw [if_neg Bool.false_ne_true] at hat
          rw [hat]
          exact ⟨_, rfl, List.Perm.refl _, List.sublist_cons_self _ _, rfl⟩
        | true =>
          rw [if_pos rfl] at hat
          rw [hat]
          refine ⟨⟨cp, first, none⟩, rfl, ?_, ?_, rfl⟩
          · rw [slots_pair, slots_pair]
            simpa [slotList] using List.perm_append_singleton ((⟨cp, true⟩ : Position), property) (slotList ⟨cp, false⟩ first)
          · rw [slots_pair, slots_pair]
            exact List.Sublist.append_left (List.nil_sublist _) _
      have hperm' : (slots (pair :: pairs)).Perm ((position, property) :: slots (linkPair pair' pairs)) := by
        rw [slots_cons, slots_linkPair]
        exact hperm.append_right _
      obtain ⟨deleting', hdelete, hok'⟩ := deleteSlot_spec h (hok.perm (hperm'.append_right done)) (hslots hin)
      rw [if_pos hcp, hat]
      dsimp only
      rw [hdelete, hpair']
      refine ⟨deleting', linkPair pair' pairs, rfl, hok', hperm', ?_, ?_⟩
      · rw [slots_cons, slots_linkPair]
        exact hsub.append_right _
      · rw [List.map_cons, ← hcp']
        exact cps_linkPair pair' (List.Sublist.refl _)
    · have hin' : (position, property) ∈ slots pairs := by
        rw [slots_cons, List.mem_append] at hin
        exact hin.resolve_left fun hhead => hcp (mem_slots_pair.mp hhead).1.symm
      rw [slots_cons] at hok hslots
      rw [List.append_assoc] at hok
      rw [List.map_cons, List.nodup_cons] at hdistinct
      obtain ⟨deleting', pairs', hloop, hok', hperm, hsub, hcps⟩ := ih deleting _
        (hok.perm (List.perm_append_comm_assoc _ _ _)) hdistinct.2
        (fun slot hslot => hslots (List.mem_append_right _ hslot)) hin'
      rw [if_neg hcp, hloop]
      refine ⟨deleting', pair :: pairs', rfl, ?_, ?_, ?_, ?_⟩
      · rw [slots_cons, List.append_assoc]
        exact hok'.perm (List.perm_append_comm_assoc _ _ _)
      · rw [slots_cons, slots_cons]
        exact (hperm.append_left _).trans List.perm_middle
      · rw [slots_cons, slots_cons]
        exact hsub.append_left _
      · rw [List.map_cons, List.map_cons]
        exact hcps.cons_cons _

/-- A deletion takes the property away, and nothing else. -/
theorem delete_correct (h : StoreOk strings cpointer32Bit store) (alloc : Bool) {position : Position}
    {property : Property α} (hin : (position, property) ∈ slots (store.objects object).pairs) :
    ∃ store', ecmaDeleteProperty strings cpointer32Bit alloc store object position = some store' ∧
      (slots (store.objects object).pairs).Perm ((position, property) :: slots (store'.objects object).pairs) ∧
      (∀ other, other ≠ object → store'.objects other = store.objects other) ∧ StoreOk strings cpointer32Bit store' := by
  have hstart := start_ok h object
  rw [← List.append_nil (slots (store.objects object).pairs)] at hstart
  obtain ⟨deleting, pairs', hloop, hok, hperm, hsub, hcps⟩ := deleteLoop_spec h _ _ [] hstart (h.distinct object)
    (fun slot hslot => hslot) hin
  rw [List.append_nil] at hok
  obtain ⟨store', hfinish, hself, hothers, hstore⟩ := finish_spec h alloc hcps hsub hok
  refine ⟨store', ?_, ?_, hothers, hstore⟩
  · rw [ecmaDeleteProperty, hloop]
    exact hfinish
  · rw [hself]
    exact hperm

/-! ## Creation -/

/-- The chain with a new property: in the first pair, or in a new one. -/
def putProperty (pairs : List (Pair α)) (property : Property α) (newCp : Nat) : List (Pair α) × Position :=
  match pairs with
  | ⟨cp, none, second⟩ :: rest => (⟨cp, some property, second⟩ :: rest, ⟨cp, false⟩)
  | pairs => (⟨newCp, none, some property⟩ :: pairs, ⟨newCp, true⟩)

theorem create_eq (alloc : Bool) (name : Name) (value : α) (configurable : Bool) (newCp : Nat) :
    ecmaCreateProperty strings alloc store object name value configurable newCp =
      (match (store.objects object).hashmap with
        | none => some none
        | some m => ecmaPropertyHashmapInsert strings alloc
            (putProperty (store.objects object).pairs ⟨name, value, configurable, false⟩ newCp).1 m name
            (putProperty (store.objects object).pairs ⟨name, value, configurable, false⟩ newCp).2).bind fun hashmap =>
        some ⟨Function.update store.objects object
          ⟨hashmap, (putProperty (store.objects object).pairs ⟨name, value, configurable, false⟩ newCp).1⟩,
          store.lcache⟩ := by
  rw [ecmaCreateProperty]
  generalize (store.objects object).pairs = pairs
  cases pairs with
  | nil =>
    cases (store.objects object).hashmap with
    | none => rfl
    | some m => rfl
  | cons pair rest =>
    obtain ⟨cp, first, second⟩ := pair
    cases first with
    | none =>
      cases (store.objects object).hashmap with
      | none => rfl
      | some m => rfl
    | some property =>
      cases (store.objects object).hashmap with
      | none => rfl
      | some m => rfl

/-- A creation puts the property into the chain, and changes nothing else. -/
theorem create_correct (h : StoreOk strings cpointer32Bit store) (alloc : Bool) {name : Name} (value : α)
    (configurable : Bool) {newCp : Nat} (hnew : lookup strings (store.objects object).pairs name = none)
    (hzero : newCp ≠ 0) (hfresh : ∀ other, newCp ∉ (store.objects other).pairs.map Pair.cp) :
    ∃ store' position, ecmaCreateProperty strings alloc store object name value configurable newCp = some store' ∧
      slots (store'.objects object).pairs =
        (position, ⟨name, value, configurable, false⟩) :: slots (store.objects object).pairs ∧
      (∀ other, other ≠ object → store'.objects other = store.objects other) ∧ StoreOk strings cpointer32Bit store' := by
  have hchain := h.chains object
  obtain ⟨pairs', position, hput, hslots, hchain', hcps⟩ : ∃ (pairs' : List (Pair α)) (position : Position),
      putProperty (store.objects object).pairs ⟨name, value, configurable, false⟩ newCp = (pairs', position) ∧
      slots pairs' = (position, ⟨name, value, configurable, false⟩) :: slots (store.objects object).pairs ∧
      ((pairs'.map Pair.cp).Nodup ∧ 0 ∉ pairs'.map Pair.cp) ∧
      ∀ cp ∈ pairs'.map Pair.cp, cp = newCp ∨ cp ∈ (store.objects object).pairs.map Pair.cp := by
    have hfree := hfresh object
    have hdistinct := hchain.distinct
    have hnonzero := hchain.nonzero
    rw [putProperty.eq_def]
    split
    · rename_i cp second rest hpairs
      rw [hpairs] at hdistinct hnonzero ⊢
      exact ⟨_, _, rfl, rfl, ⟨hdistinct, hnonzero⟩, fun cp hcp => Or.inr hcp⟩
    · refine ⟨_, _, rfl, rfl, ⟨?_, ?_⟩, ?_⟩
      · rw [List.map_cons, List.nodup_cons]
        exact ⟨hfree, hdistinct⟩
      · rw [List.map_cons, List.mem_cons, not_or]
        exact ⟨hzero.symm, hnonzero⟩
      · intro cp hcp
        rw [List.map_cons, List.mem_cons] at hcp
        exact hcp
  have hchainOk : ChainOk strings pairs' := by
    refine ⟨hchain'.2, hchain'.1, ?_⟩
    rw [hslots, List.pairwise_cons]
    refine ⟨?_, hchain.names⟩
    intro slot hslot
    rw [Bool.eq_false_iff]
    intro hsame
    rw [lookup_some hchain hslot (sameName_symm hsame)] at hnew
    cases hnew
  obtain ⟨hashmap, hinsert, hhashmap⟩ : ∃ hashmap : Option Hashmap,
      (match (store.objects object).hashmap with
        | none => some none
        | some m => ecmaPropertyHashmapInsert strings alloc pairs' m name position) = some hashmap ∧
      ∀ m, hashmap = some m → HashmapOk strings (slots pairs') m := by
    split
    · exact ⟨none, rfl, fun m hm => by cases hm⟩
    · rename_i m hm
      have hperm : (slots pairs').Perm ((position, ⟨name, value, configurable, false⟩) ::
          slots (store.objects object).pairs) := by rw [hslots]
      obtain ⟨result, hinsert, hresult⟩ := insert_spec alloc (h.hashmaps object m hm) hperm
        (fun slot hslot => hchainOk.pair_ne hslot) (slots_nodup hchainOk.distinct)
      exact ⟨result, hinsert, hresult⟩
  refine ⟨⟨Function.update store.objects object ⟨hashmap, pairs'⟩, store.lcache⟩, position, ?_, ?_, ?_, ?_⟩
  · rw [create_eq, hput]
    dsimp only
    rw [hinsert]
    rfl
  · rw [update_pairs, if_pos rfl]
    exact hslots
  · intro other hother
    exact Function.update_of_ne hother _ _
  · refine ⟨?_, ?_, ?_, ?_, ?_, h.cache.once⟩
    · intro other
      rw [update_pairs]
      split
      · exact hchainOk
      · exact h.chains other
    · -- the new pair is in no other object
      have hmem : ∀ other cp, cp ∈ (Function.update store.objects object ⟨hashmap, pairs'⟩ other).pairs.map Pair.cp →
          cp = newCp ∧ other = object ∨ cp ∈ (store.objects other).pairs.map Pair.cp := by
        intro other cp hcp
        rw [update_pairs] at hcp
        split at hcp
        · rename_i hother
          cases hcps cp hcp with
          | inl hnewCp => exact Or.inl ⟨hnewCp, hother⟩
          | inr hold =>
            rw [hother]
            exact Or.inr hold
        · exact Or.inr hcp
      intro other other' cp hcp hcp'
      cases hmem other cp hcp with
      | inl hleft =>
        cases hmem other' cp hcp' with
        | inl hright => rw [hleft.2, hright.2]
        | inr hright =>
          rw [hleft.1] at hright
          exact absurd hright (hfresh other')
      | inr hleft =>
        cases hmem other' cp hcp' with
        | inl hright =>
          rw [hright.1] at hleft
          exact absurd hleft (hfresh other)
        | inr hright => exact h.separate other other' cp hleft hright
    · intro other m hm
      rw [update_pairs]
      dsimp only at hm
      split
      · rename_i hother
        rw [hother, Function.update_self] at hm
        exact hhashmap m hm
      · rename_i hother
        rw [Function.update_of_ne hother] at hm
        exact h.hashmaps other m hm
    · intro r entry hin
      obtain ⟨hindex, property, hslot, hflag⟩ := h.cache.held r entry hin
      refine ⟨hindex, property, ?_, hflag⟩
      rw [update_pairs]
      split
      · rename_i hobject
        rw [hobject] at hslot
        rw [hslots]
        exact List.mem_cons_of_mem _ hslot
      · exact hslot
    · intro other position' property hin hlcached
      rw [update_pairs] at hin
      split at hin
      · rename_i hother
        rw [hslots] at hin
        cases List.mem_cons.mp hin with
        | inl heq =>
          cases heq
          cases hlcached
        | inr hold =>
          rw [hother]
          exact h.cache.flagged object position' property hold hlcached
      · exact h.cache.flagged other position' property hin hlcached

/-! ## Runs -/

/-- What has happened to the properties of objects. -/
inductive Event (α : Type) where
  | created (object : Nat) (name : Name) (value : α)
  | found
  | deleted (object : Nat) (name : Name)

/-- The value of the property that was created last under a name and not deleted since. The last event is the first one of
the list. -/
def current (strings : HeapStrings κ) (object : Nat) (name : Name) : List (Event α) → Option α
  | [] => none
  | .created object' name' value :: events =>
    if object' = object ∧ sameName strings name' name then some value else current strings object name events
  | .found :: events => current strings object name events
  | .deleted object' name' :: events =>
    if object' = object ∧ sameName strings name' name then none else current strings object name events

/-- Objects without properties. -/
def emptyStore : Store α := ⟨fun _ => ⟨none, []⟩, fun _ => ⟨none, none⟩⟩

/-- Creations of properties with names that are not present, lookups, and deletions of properties that are there. -/
inductive Run (strings : HeapStrings κ) (cpointer32Bit : Bool) : List (Event α) → Store α → Prop where
  | start : Run strings cpointer32Bit [] emptyStore
  | create {events : List (Event α)} {store store' : Store α} {alloc : Bool} {object : Nat} {name : Name} {value : α}
      {configurable : Bool} {newCp : Nat} :
      Run strings cpointer32Bit events store → current strings object name events = none → newCp ≠ 0 →
      (∀ other, newCp ∉ (store.objects other).pairs.map Pair.cp) →
      ecmaCreateProperty strings alloc store object name value configurable newCp = some store' →
      Run strings cpointer32Bit (.created object name value :: events) store'
  | find {events : List (Event α)} {store store' : Store α} {alloc : Bool} {object : Nat} {name : Name}
      {found : Option Position} :
      Run strings cpointer32Bit events store →
      ecmaFindNamedProperty strings cpointer32Bit alloc store object name = some (store', found) →
      Run strings cpointer32Bit (.found :: events) store'
  | delete {events : List (Event α)} {store store' : Store α} {alloc : Bool} {object : Nat} {position : Position}
      {property : Property α} :
      Run strings cpointer32Bit events store → (position, property) ∈ slots (store.objects object).pairs →
      ecmaDeleteProperty strings cpointer32Bit alloc store object position = some store' →
      Run strings cpointer32Bit (.deleted object property.name :: events) store'

/-- The chains have the values that the events say. -/
def Holds (strings : HeapStrings κ) (store : Store α) (events : List (Event α)) : Prop :=
  ∀ object name value, current strings object name events = some value ↔
    ∃ slot ∈ slots (store.objects object).pairs, sameName strings slot.2.name name = true ∧ slot.2.value = value

theorem Holds.none_iff {events : List (Event α)} (h : Holds strings store events) (object : Nat) (name : Name) :
    current strings object name events = none ↔ lookup strings (store.objects object).pairs name = none := by
  constructor
  · intro hnone
    refine lookup_none ?_
    intro slot hslot
    rw [Bool.eq_false_iff]
    intro hsame
    rw [(h object name slot.2.value).mpr ⟨slot, hslot, hsame, rfl⟩] at hnone
    cases hnone
  · intro hnone
    cases hcurrent : current strings object name events with
    | none => rfl
    | some value =>
      obtain ⟨slot, hslot, hsame, -⟩ := (h object name value).mp hcurrent
      rw [lookup, Option.map_eq_none_iff, List.find?_eq_none] at hnone
      exact absurd hsame (hnone slot hslot)

theorem SameSlots.symm {a b : List (Position × Property α)} (h : SameSlots a b) : SameSlots b a := by
  induction h with
  | nil => exact List.Forall₂.nil
  | @cons x y _ _ hhead _ ih =>
    refine List.Forall₂.cons ⟨hhead.1.symm, ?_⟩ ih
    rw [hhead.2]

theorem SameSlots.mem_value {a b : List (Position × Property α)} (h : SameSlots a b) {slot : Position × Property α}
    (hslot : slot ∈ b) : ∃ other ∈ a, slot.2.name = other.2.name ∧ slot.2.value = other.2.value := by
  induction h with
  | nil => cases hslot
  | @cons x y _ _ hhead _ ih =>
    cases List.mem_cons.mp hslot with
    | inl heq =>
      refine ⟨x, List.mem_cons_self, ?_, ?_⟩
      · rw [heq, hhead.2]
      · rw [heq, hhead.2]
    | inr hin =>
      obtain ⟨other, hother, hsame⟩ := ih hin
      exact ⟨other, List.mem_cons_of_mem x hother, hsame⟩

/-- Every run keeps the objects right, and they hold what its events say. -/
theorem Run.spec {events : List (Event α)} (h : Run strings cpointer32Bit events store) :
    StoreOk strings cpointer32Bit store ∧ Holds strings store events := by
  induction h with
  | start =>
    refine ⟨?_, ?_⟩
    · refine storeOk_start ?_ ?_ (fun _ => rfl) ?_
      · exact fun object => ⟨List.not_mem_nil, List.nodup_nil, List.Pairwise.nil⟩
      · intro object object' cp hin
        cases hin
      · intro object slot hslot
        cases hslot
    · intro object name value
      constructor
      · intro hcurrent
        cases hcurrent
      · intro hslot
        obtain ⟨slot, hin, -⟩ := hslot
        cases hin
  | @create events store store' alloc object name value configurable newCp _ hnew hzero hfresh hcreate ih =>
    obtain ⟨hok, hholds⟩ := ih
    obtain ⟨created, position, hcreated, hslots, hothers, hstore⟩ := create_correct hok alloc value configurable
      ((hholds.none_iff object name).mp hnew) hzero hfresh
    rw [hcreate] at hcreated
    cases hcreated
    refine ⟨hstore, ?_⟩
    intro object' name' value'
    rw [current]
    by_cases hobject : object = object'
    · rw [← hobject, hslots]
      by_cases hsame : sameName strings name name' = true
      · rw [if_pos ⟨rfl, hsame⟩]
        constructor
        · intro heq
          exact ⟨_, List.mem_cons_self, hsame, Option.some.inj heq⟩
        · intro hexists
          obtain ⟨slot, hin, hslot, heq⟩ := hexists
          cases List.mem_cons.mp hin with
          | inl hhead =>
            rw [hhead] at heq
            rw [← heq]
          | inr htail =>
            have hold := (hholds object name slot.2.value).mpr
              ⟨slot, htail, sameName_trans hslot (sameName_symm hsame), rfl⟩
            rw [hnew] at hold
            cases hold
      · rw [if_neg fun hboth => hsame hboth.2, hholds]
        constructor
        · intro hexists
          obtain ⟨slot, hin, hrest⟩ := hexists
          exact ⟨slot, List.mem_cons_of_mem _ hin, hrest⟩
        · intro hexists
          obtain ⟨slot, hin, hslot, heq⟩ := hexists
          cases List.mem_cons.mp hin with
          | inl hhead =>
            rw [hhead] at hslot
            exact absurd hslot hsame
          | inr htail => exact ⟨slot, htail, hslot, heq⟩
    · rw [if_neg fun hboth => hobject hboth.1, hothers object' (Ne.symm hobject)]
      exact hholds object' name' value'
  | @find events store store' alloc object name found _ hfind ih =>
    obtain ⟨hok, hholds⟩ := ih
    obtain ⟨found', hfound, hstore, hsame⟩ := find_correct hok alloc object name
    rw [hfind] at hfound
    cases hfound
    refine ⟨hstore, ?_⟩
    intro object' name' value'
    rw [current, hholds]
    constructor
    · intro hexists
      obtain ⟨slot, hin, hslot, heq⟩ := hexists
      obtain ⟨other, hother, hname, hvalue⟩ := (hsame object').slots.symm.mem_value hin
      rw [hname] at hslot
      rw [hvalue] at heq
      exact ⟨other, hother, hslot, heq⟩
    · intro hexists
      obtain ⟨slot, hin, hslot, heq⟩ := hexists
      obtain ⟨other, hother, hname, hvalue⟩ := (hsame object').slots.mem_value hin
      rw [hname] at hslot
      rw [hvalue] at heq
      exact ⟨other, hother, hslot, heq⟩
  | @delete events store store' alloc object position property _ hin hdelete ih =>
    obtain ⟨hok, hholds⟩ := ih
    obtain ⟨deleted, hdeleted, hperm, hothers, hstore⟩ := delete_correct hok alloc hin
    rw [hdelete] at hdeleted
    cases hdeleted
    refine ⟨hstore, ?_⟩
    intro object' name' value'
    rw [current]
    by_cases hobject : object = object'
    · rw [← hobject]
      by_cases hsame : sameName strings property.name name' = true
      · rw [if_pos ⟨rfl, hsame⟩]
        refine iff_of_false (fun h => by cases h) ?_
        intro hexists
        obtain ⟨slot, hslot, hname, -⟩ := hexists
        -- the deleted property was the only one with the name
        have hnames := (hok.chains object).unique (hperm.mem_iff.mpr (List.mem_cons_of_mem _ hslot)) hin
          (sameName_trans hname (sameName_symm hsame))
        have hnodup := (hperm.map Prod.fst).nodup_iff.mp (slots_nodup (hok.distinct object))
        rw [List.map_cons, List.nodup_cons] at hnodup
        rw [hnames] at hslot
        exact hnodup.1 (List.mem_map_of_mem hslot)
      · rw [if_neg fun hboth => hsame hboth.2, hholds]
        constructor
        · intro hexists
          obtain ⟨slot, hslot, hname, heq⟩ := hexists
          cases List.mem_cons.mp (hperm.mem_iff.mp hslot) with
          | inl hhead =>
            rw [hhead] at hname
            exact absurd hname hsame
          | inr htail => exact ⟨slot, htail, hname, heq⟩
        · intro hexists
          obtain ⟨slot, hslot, hrest⟩ := hexists
          exact ⟨slot, hperm.mem_iff.mpr (List.mem_cons_of_mem _ hslot), hrest⟩
    · rw [if_neg fun hboth => hobject hboth.1, hothers object' (Ne.symm hobject)]
      exact hholds object' name' value'

/-- After every run a lookup returns what the scan of the chain does: the property that was created last under the name and
not deleted since. A creation, a lookup or a deletion that comes next has a result. -/
theorem find_run {events : List (Event α)} (h : Run strings cpointer32Bit events store) (alloc : Bool) (object : Nat)
    (name : Name) :
    (∃ store', ecmaFindNamedProperty strings cpointer32Bit alloc store object name =
      some (store', (findLoop strings name (store.objects object).pairs).1)) ∧
    ((findLoop strings name (store.objects object).pairs).1.bind fun position =>
      (propertyAt (store.objects object).pairs position).map Property.value) = current strings object name events ∧
    (∀ value configurable newCp, current strings object name events = none → newCp ≠ 0 →
      (∀ other, newCp ∉ (store.objects other).pairs.map Pair.cp) →
      (ecmaCreateProperty strings alloc store object name value configurable newCp).isSome) ∧
    ∀ slot ∈ slots (store.objects object).pairs,
      (ecmaDeleteProperty strings cpointer32Bit alloc store object slot.1).isSome := by
  obtain ⟨hok, hholds⟩ := h.spec
  have hchain := hok.chains object
  rw [findLoop_spec]
  refine ⟨?_, ?_, ?_, ?_⟩
  · obtain ⟨store', hfind, -, -⟩ := find_correct hok alloc object name
    exact ⟨store', hfind⟩
  · cases hlookup : lookup strings (store.objects object).pairs name with
    | none =>
      rw [(hholds.none_iff object name).mpr hlookup]
      rfl
    | some position =>
      obtain ⟨property, hin, hsame⟩ := lookup_mem hlookup
      rw [Option.bind_some, (propertyAt_iff hchain.distinct).mpr hin, Option.map_some]
      exact ((hholds object name property.value).mpr ⟨_, hin, hsame, rfl⟩).symm
  · intro value configurable newCp hnew hzero hfresh
    obtain ⟨store', _, hcreate, -⟩ := create_correct hok alloc value configurable
      ((hholds.none_iff object name).mp hnew) hzero hfresh
    rw [hcreate]
    rfl
  · intro slot hslot
    obtain ⟨store', hdelete, -⟩ := delete_correct hok alloc hslot
    rw [hdelete]
    rfl

/-- A run that creates a property. -/
theorem find_run_created :
    ∃ store : Store Unit, Run directStrings false [.created 1 (.direct .magic 5) ()] store ∧
      (∃ store', ecmaFindNamedProperty directStrings false true store 1 (.direct .magic 5) =
        some (store', (findLoop directStrings (.direct .magic 5) (store.objects 1).pairs).1)) ∧
      ((findLoop directStrings (.direct .magic 5) (store.objects 1).pairs).1.bind fun position =>
        (propertyAt (store.objects 1).pairs position).map Property.value) = some () := by
  have hrun := @Run.create Unit Unit _ directStrings false [] emptyStore _ true 1 (.direct .magic 5) () true 7
    .start rfl (by decide) (fun _ => List.not_mem_nil) rfl
  obtain ⟨hfind, hvalue, -⟩ := find_run hrun true 1 (.direct .magic 5)
  exact ⟨_, hrun, hfind, hvalue⟩

end PropertyStore
end JJS
