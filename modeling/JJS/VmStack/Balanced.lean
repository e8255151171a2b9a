import JJS.VmStack.Contexts
import Mathlib.Data.List.Count

/-!
# JJS.VmStack.Balanced

Suspending and resuming a frame is balanced: `vm_ref_lex_env_chain`, `ecma_gc_mark_executable_object` and
`vm_stack_context_abort` come by the same places, each of them once, and end where the contexts do. So the reference counts
are restored by a walk in the other direction, or when the contexts are left.

All of this holds if and only if the contexts of variable length hold objects only. They also hold the values that were
on the stack before them, which can be of any kind, and there `ecma_gc_mark_executable_object` takes a value for an object
without a check.
-/

namespace JJS
namespace VmStack

/-! ## Reference counts -/

section References

variable {maxRef : Nat} {refs refs' : Nat → Nat} {objects : List Nat}

theorem foldlM_atObject {σ : Type} (act : σ → Nat → Option σ) (places : List Place) (s : σ) :
    places.foldlM (atObject act) s = (places.filterMap Place.object).foldlM act s := by
  rw [List.foldlM_filterMap]
  congr 1
  funext s place
  rw [atObject]
  cases place.object <;> rfl

theorem ecmaRefObject_eq_some {object : Nat} (h : ecmaRefObject maxRef refs object = some refs') :
    refs object < maxRef ∧ refs' = Function.update refs object (refs object + 1) := by
  rw [ecmaRefObject] at h
  split at h
  case isTrue hlt => exact ⟨hlt, (Option.some.inj h).symm⟩
  case isFalse => cases h

theorem ecmaDerefObject_eq_some {object : Nat} (h : ecmaDerefObject refs object = some refs') :
    1 ≤ refs object ∧ refs' = Function.update refs object (refs object - 1) := by
  rw [ecmaDerefObject] at h
  split at h
  case isTrue hle => exact ⟨hle, (Option.some.inj h).symm⟩
  case isFalse => cases h

/-- An object is referenced once more for each time it is in the list. -/
theorem ref_all (h : objects.foldlM (ecmaRefObject maxRef) refs = some refs') :
    refs' = fun x => refs x + objects.count x := by
  induction objects generalizing refs with
  | nil => exact (Option.some.inj h).symm
  | cons object objects ih =>
    rw [List.foldlM_cons] at h
    obtain ⟨refs₁, hfirst, hrest⟩ := Option.bind_eq_some_iff.mp h
    obtain ⟨-, rfl⟩ := ecmaRefObject_eq_some hfirst
    rw [ih hrest]
    funext x
    rw [List.count_cons]
    by_cases hx : x = object
    · subst hx
      rw [Function.update_self, beq_self_eq_true, if_pos rfl]
      omega
    · rw [Function.update_of_ne hx, if_neg (by rw [beq_iff_eq]; exact fun h => hx h.symm), Nat.add_zero]

theorem deref_all (h : ∀ x, objects.count x ≤ refs x) :
    objects.foldlM ecmaDerefObject refs = some fun x => refs x - objects.count x := by
  induction objects generalizing refs with
  | nil => rfl
  | cons object objects ih =>
    have hobject : objects.count object + 1 ≤ refs object := by
      have hcount := h object
      rwa [List.count_cons_self] at hcount
    have hfirst : ecmaDerefObject refs object = some (Function.update refs object (refs object - 1)) := if_pos (by omega)
    have hrest : ∀ x, objects.count x ≤ Function.update refs object (refs object - 1) x := by
      intro x
      by_cases hx : x = object
      · subst hx
        rw [Function.update_self]
        omega
      · rw [Function.update_of_ne hx]
        exact Nat.le_trans List.count_le_count_cons (h x)
    rw [List.foldlM_cons, hfirst]
    show List.foldlM ecmaDerefObject _ objects = _
    rw [ih hrest]
    congr 1
    funext x
    rw [List.count_cons]
    by_cases hx : x = object
    · subst hx
      rw [Function.update_self, beq_self_eq_true, if_pos rfl]
      omega
    · rw [Function.update_of_ne hx, if_neg (by rw [beq_iff_eq]; exact fun h => hx h.symm), Nat.add_zero]

theorem deref_all_of_some (h : objects.foldlM ecmaDerefObject refs = some refs') :
    (∀ x, objects.count x ≤ refs x) ∧ refs' = fun x => refs x - objects.count x := by
  have hcount : ∀ x, objects.count x ≤ refs x := by
    intro x
    induction objects generalizing refs with
    | nil => exact Nat.zero_le _
    | cons object objects ih =>
      rw [List.foldlM_cons] at h
      obtain ⟨refs₁, hfirst, hrest⟩ := Option.bind_eq_some_iff.mp h
      obtain ⟨hpos, rfl⟩ := ecmaDerefObject_eq_some hfirst
      have hle := ih hrest
      rw [List.count_cons]
      by_cases hx : x = object
      · subst hx
        rw [Function.update_self] at hle
        rw [beq_self_eq_true, if_pos rfl]
        omega
      · rw [Function.update_of_ne hx] at hle
        rwa [if_neg (by rw [beq_iff_eq]; exact fun h => hx h.symm), Nat.add_zero]
  rw [deref_all hcount] at h
  exact ⟨hcount, (Option.some.inj h).symm⟩

/-- There is no fatal error when the counts do not grow above the limit. -/
theorem ref_all_isSome (h : ∀ x, refs x + objects.count x ≤ maxRef) :
    (objects.foldlM (ecmaRefObject maxRef) refs).isSome := by
  induction objects generalizing refs with
  | nil => rfl
  | cons object objects ih =>
    have hobject : refs object < maxRef := by
      have hcount := h object
      rw [List.count_cons_self] at hcount
      omega
    have hfirst : ecmaRefObject maxRef refs object = some (Function.update refs object (refs object + 1)) := if_pos hobject
    rw [List.foldlM_cons, hfirst]
    refine ih fun x => ?_
    have hcount := h x
    rw [List.count_cons] at hcount
    by_cases hx : x = object
    · subst hx
      rw [beq_self_eq_true, if_pos rfl] at hcount
      rw [Function.update_self]
      omega
    · rw [Function.update_of_ne hx]
      omega

/-- A walk back restores the counts. -/
theorem deref_ref (h : objects.foldlM (ecmaRefObject maxRef) refs = some refs') :
    objects.foldlM ecmaDerefObject refs' = some refs := by
  have hrefs := ref_all h
  have hle : ∀ x, objects.count x ≤ refs' x := by
    intro x
    rw [hrefs]
    exact Nat.le_add_left _ _
  rw [deref_all hle, hrefs]
  congr 1
  funext x
  show refs x + objects.count x - objects.count x = refs x
  omega

theorem ref_deref (hmax : ∀ x, refs x ≤ maxRef) (h : objects.foldlM ecmaDerefObject refs = some refs') :
    objects.foldlM (ecmaRefObject maxRef) refs' = some refs := by
  obtain ⟨hcount, rfl⟩ := deref_all_of_some h
  have hsum (x : Nat) : refs x - objects.count x + objects.count x = refs x := Nat.sub_add_cancel (hcount x)
  obtain ⟨refs'', hrefs⟩ := Option.isSome_iff_exists.mp
    (@ref_all_isSome maxRef (fun x => refs x - objects.count x) objects fun x => by rw [hsum x]; exact hmax x)
  rw [hrefs, ref_all hrefs]
  congr 1
  funext x
  exact hsum x

end References

/-! ## Each place once -/

namespace Place

/-- The position of a value on the stack. -/
def position : Place → Option Nat
  | .item position _ | .value position _ => some position
  | _ => none

/-- The collection that a name is in, and a collection itself. -/
def inCollection : Place → Option Nat
  | .name owner _ _ | .collection owner => some owner
  | _ => none

/-- There is a value that is an object on the stack. -/
def isObjectValue : Place → Bool
  | .item _ held | .value _ held => ecmaIsValueObject held
  | _ => false

end Place

variable {c : Context} {contexts : List Context} {lexEnvs : List Nat} {collections : Nat → List Nat} {base : Nat}
  {place : Place}

theorem itemsFrom_position {values : List Nat} (h : place ∈ itemsFrom base values) :
    ∃ position value, place = .item position value ∧ base ≤ position ∧ position < base + values.length := by
  induction values with
  | nil => cases h
  | cons value rest ih =>
    rw [List.length_cons]
    rcases List.mem_cons.mp h with rfl | h
    · exact ⟨_, _, rfl, by omega, by omega⟩
    · obtain ⟨position, value, hplace, hle, hlt⟩ := ih h
      exact ⟨position, value, hplace, hle, by omega⟩

theorem itemsFrom_nodup (base : Nat) (values : List Nat) : (itemsFrom base values).Nodup := by
  induction values with
  | nil => exact List.nodup_nil
  | cons value rest ih =>
    refine List.nodup_cons.mpr ⟨fun h => ?_, ih⟩
    obtain ⟨position, held, hplace, -, hlt⟩ := itemsFrom_position h
    injection hplace with hposition
    omega

theorem valueAt_position {k : Nat} (h : place ∈ c.valueAt base k) :
    ∃ value, place = .value (base + (c.values.length - 1 - k)) value ∧ k < c.values.length := by
  obtain ⟨value, hvalue, rfl⟩ := Option.map_eq_some_iff.mp h
  exact ⟨value, rfl, (List.getElem?_eq_some_iff.mp hvalue).1⟩

/-- What a context holds is at its own positions. -/
theorem held_position (h : place ∈ c.held base) :
    ∃ position, place.position = some position ∧ base ≤ position ∧ position < base + c.values.length := by
  rw [Context.held] at h
  split at h
  case isTrue =>
    obtain ⟨position, value, rfl, hle, hlt⟩ := itemsFrom_position h
    exact ⟨position, rfl, hle, hlt⟩
  case isFalse =>
    obtain ⟨k, -, hk⟩ := List.mem_filterMap.mp h
    obtain ⟨value, rfl, hlt⟩ := valueAt_position hk
    exact ⟨_, rfl, by omega, by omega⟩

theorem heldValues_nodup (type : ContextType) : type.heldValues.Nodup := by
  cases type <;> decide

theorem held_nodup (c : Context) (base : Nat) : (c.held base).Nodup := by
  rw [Context.held]
  split
  case isTrue => exact itemsFrom_nodup base c.values
  case isFalse =>
    refine (heldValues_nodup c.type).filterMap ?_
    intro k k' place hk hk'
    obtain ⟨value, rfl, hlt⟩ := valueAt_position hk
    obtain ⟨value', hplace, hlt'⟩ := valueAt_position hk'
    injection hplace with hposition
    omega

theorem mem_ownLexEnv : place ∈ c.ownLexEnv lexEnvs ↔
    c.hasLexEnv = true ∧ ∃ lexEnv, lexEnvs.head? = some lexEnv ∧ place = .lexEnv lexEnv := by
  rw [Context.ownLexEnv]
  cases c.hasLexEnv with
  | true => cases lexEnvs <;> simp
  | false => simp

theorem ownLexEnv_nodup (c : Context) (lexEnvs : List Nat) : (c.ownLexEnv lexEnvs).Nodup := by
  rw [Context.ownLexEnv]
  cases c.hasLexEnv <;> cases lexEnvs <;> simp

/-- A place that is visited below a context is a lexical environment outside, or a value further down. -/
theorem places_kind (h : place ∈ places contexts lexEnvs) :
    (∃ lexEnv ∈ lexEnvs, place = .lexEnv lexEnv) ∨
      ∃ position, place.position = some position ∧ position < (layout contexts).length := by
  induction contexts generalizing lexEnvs with
  | nil => cases h
  | cons c contexts ih =>
    rw [places, placesOf, List.mem_append, List.mem_append] at h
    rw [layout_cons, List.length_append, Context.words, List.length_cons]
    rcases h with (h | h) | h
    · obtain ⟨-, lexEnv, hhead, rfl⟩ := mem_ownLexEnv.mp h
      exact .inl ⟨lexEnv, List.mem_of_mem_head? hhead, rfl⟩
    · obtain ⟨position, hposition, -, hlt⟩ := held_position h
      exact .inr ⟨position, hposition, by omega⟩
    · rcases ih h with ⟨lexEnv, hmem, rfl⟩ | ⟨position, hposition, hlt⟩
      · refine .inl ⟨lexEnv, ?_, rfl⟩
        rw [Context.outerLexEnvs] at hmem
        split at hmem
        · exact List.mem_of_mem_tail hmem
        · exact hmem
      · exact .inr ⟨position, hposition, by omega⟩

theorem outerLexEnvs_nodup (c : Context) (h : lexEnvs.Nodup) : (c.outerLexEnvs lexEnvs).Nodup := by
  rw [Context.outerLexEnvs]
  split
  · exact h.tail
  · exact h

/-- The lexical environment of a context is none of those outside. -/
theorem ownLexEnv_not_outer (hnodup : lexEnvs.Nodup) (h : place ∈ c.ownLexEnv lexEnvs) {lexEnv : Nat}
    (hplace : place = .lexEnv lexEnv) : lexEnv ∉ c.outerLexEnvs lexEnvs := by
  obtain ⟨hhas, own, hhead, rfl⟩ := mem_ownLexEnv.mp h
  injection hplace with hsame
  subst hsame
  rw [Context.outerLexEnvs, if_pos hhas]
  cases lexEnvs with
  | nil => cases hhead
  | cons first rest =>
    rw [Option.some.inj hhead] at hnodup
    exact (List.nodup_cons.mp hnodup).1

theorem places_nodup (contexts : List Context) (hnodup : lexEnvs.Nodup) : (places contexts lexEnvs).Nodup := by
  induction contexts generalizing lexEnvs with
  | nil => exact List.nodup_nil
  | cons c contexts ih =>
    rw [places, placesOf, List.append_assoc]
    refine List.nodup_append'.mpr ⟨ownLexEnv_nodup c lexEnvs, List.nodup_append'.mpr ⟨held_nodup c _, ?_, ?_⟩, ?_⟩
    · exact ih (outerLexEnvs_nodup c hnodup)
    · intro place hheld hbelow
      obtain ⟨position, hposition, hle, -⟩ := held_position hheld
      rcases places_kind hbelow with ⟨lexEnv, -, rfl⟩ | ⟨below, hsame, hlt⟩
      · cases hposition
      · rw [hposition] at hsame
        have hsame := Option.some.inj hsame
        omega
    · intro place hown hrest
      obtain ⟨-, own, -, rfl⟩ := mem_ownLexEnv.mp hown
      rcases List.mem_append.mp hrest with hheld | hbelow
      · obtain ⟨position, hposition, -⟩ := held_position hheld
        cases hposition
      · rcases places_kind hbelow with ⟨lexEnv, hmem, hsame⟩ | ⟨position, hposition, -⟩
        · exact ownLexEnv_not_outer hnodup hown hsame hmem
        · cases hposition

theorem outerLexEnvs_drop (c : Context) (contexts : List Context) (lexEnvs : List Nat) :
    (c.outerLexEnvs lexEnvs).drop (countLexEnvs contexts) = lexEnvs.drop (countLexEnvs (c :: contexts)) := by
  have hcount : countLexEnvs (c :: contexts) = countLexEnvs contexts + if c.hasLexEnv then 1 else 0 := List.countP_cons
  rw [hcount, Context.outerLexEnvs]
  cases c.hasLexEnv with
  | true => rw [if_pos rfl, if_pos rfl, List.drop_tail]
  | false => rfl

/-- A place that is visited belongs to one of the contexts, in front of which are the lexical environments of the
contexts above. -/
theorem mem_placesOf {of : Context → Nat → List Place} : place ∈ placesOf of contexts lexEnvs ↔
    ∃ above c below, contexts = above ++ c :: below ∧
      (place ∈ c.ownLexEnv (lexEnvs.drop (countLexEnvs above)) ∨ place ∈ of c (layout below).length) := by
  induction contexts generalizing lexEnvs with
  | nil =>
    constructor
    · intro h
      cases h
    · rintro ⟨above, c, below, h, -⟩
      cases above <;> cases h
  | cons first contexts ih =>
    rw [placesOf, List.mem_append, List.mem_append, ih]
    constructor
    · rintro (h | ⟨above, c, below, rfl, h⟩)
      · exact ⟨[], first, contexts, rfl, h⟩
      · rw [outerLexEnvs_drop] at h
        exact ⟨first :: above, c, below, rfl, h⟩
    · rintro ⟨above, c, below, hcontexts, h⟩
      cases above with
      | nil =>
        obtain ⟨rfl, rfl⟩ := List.cons.inj hcontexts
        exact .inl h
      | cons next above =>
        obtain ⟨rfl, rfl⟩ := List.cons.inj hcontexts
        rw [← outerLexEnvs_drop] at h
        exact .inr ⟨above, c, below, rfl, h⟩

theorem ownLexEnv_filter {p : Place → Bool} {kept : Bool} (hp : ∀ lexEnv, p (.lexEnv lexEnv) = kept) :
    (c.ownLexEnv lexEnvs).filter p = if kept then c.ownLexEnv lexEnvs else [] := by
  cases kept with
  | true =>
    refine List.filter_eq_self.mpr fun place h => ?_
    obtain ⟨-, lexEnv, -, rfl⟩ := mem_ownLexEnv.mp h
    exact hp lexEnv
  | false =>
    refine List.filter_eq_nil_iff.mpr fun place h => ?_
    obtain ⟨-, lexEnv, -, rfl⟩ := mem_ownLexEnv.mp h
    rw [hp]
    exact Bool.false_ne_true

/-! ## What is released -/

theorem held_notInCollection (h : place ∈ c.held base) : place.inCollection = none := by
  obtain ⟨position, hposition, -⟩ := held_position h
  cases place with
  | item | value => rfl
  | lexEnv | name | collection => cases hposition

/-- The collection of a for-in context. -/
def Context.collection? (c : Context) : Option Nat := if c.type = .forIn then some (c.values.getD 0 0) else none

theorem names_inCollection (h : place ∈ c.names collections) :
    ∃ collection, place.inCollection = some collection ∧ c.collection? = some collection := by
  rw [Context.names] at h
  rw [Context.collection?]
  by_cases hforIn : c.type = .forIn
  · rw [if_pos hforIn] at h ⊢
    refine ⟨c.values.getD 0 0, ?_, rfl⟩
    rcases List.mem_append.mp h with h | h
    · obtain ⟨entry, -, rfl⟩ := List.mem_map.mp h
      rfl
    · rw [List.mem_singleton.mp h]
      rfl
  · rw [if_neg hforIn] at h
    cases h

theorem zipIdx_nodup {α : Type} (l : List α) (n : Nat) : (l.zipIdx n).Nodup := by
  apply List.Nodup.of_map Prod.snd
  rw [List.zipIdx_map_snd]
  exact List.nodup_range' _

theorem names_nodup (collections : Nat → List Nat) (c : Context) : (c.names collections).Nodup := by
  rw [Context.names]
  split
  case isFalse => exact List.nodup_nil
  case isTrue =>
    refine List.nodup_append'.mpr ⟨?_, List.nodup_singleton _, ?_⟩
    · refine List.Nodup.map ?_ ((zipIdx_nodup _ 0).sublist (List.drop_sublist _ _))
      rintro ⟨value, index⟩ ⟨value', index'⟩ h
      injection h with _ hindex hvalue
      exact Prod.ext hvalue hindex
    · intro place hname hcollection
      obtain ⟨entry, -, rfl⟩ := List.mem_map.mp hname
      cases List.mem_singleton.mp hcollection

/-- What is released beside the names and their collections is what is visited. -/
theorem releasedPlaces_filter (contexts : List Context) (lexEnvs : List Nat) :
    (releasedPlaces collections contexts lexEnvs).filter (fun place => place.inCollection.isNone) =
      places contexts lexEnvs := by
  induction contexts generalizing lexEnvs with
  | nil => rfl
  | cons c contexts ih =>
    have hnames : (c.names collections).filter (fun place => place.inCollection.isNone) = [] :=
      List.filter_eq_nil_iff.mpr fun place h => by
        obtain ⟨collection, hcollection, -⟩ := names_inCollection h
        rw [hcollection]
        exact Bool.false_ne_true
    have hheld : (c.held (layout contexts).length).filter (fun place => place.inCollection.isNone) =
        c.held (layout contexts).length :=
      List.filter_eq_self.mpr fun place h => by rw [held_notInCollection h]; rfl
    have hown : (c.ownLexEnv lexEnvs).filter (fun place => place.inCollection.isNone) = c.ownLexEnv lexEnvs :=
      @ownLexEnv_filter c lexEnvs _ true fun _ => rfl
    have hrest := ih (c.outerLexEnvs lexEnvs)
    rw [releasedPlaces] at hrest
    rw [releasedPlaces, placesOf, List.filter_append, List.filter_append, Context.released, List.filter_append, hnames,
      hheld, hown, hrest, List.nil_append, places, placesOf]

/-- The names and collections are those of the for-in contexts. -/
theorem releasedPlaces_names (contexts : List Context) (lexEnvs : List Nat) :
    (releasedPlaces collections contexts lexEnvs).filter (fun place => !place.inCollection.isNone) =
      contexts.flatMap (Context.names collections) := by
  induction contexts generalizing lexEnvs with
  | nil => rfl
  | cons c contexts ih =>
    have hnames : (c.names collections).filter (fun place => !place.inCollection.isNone) = c.names collections :=
      List.filter_eq_self.mpr fun place h => by
        obtain ⟨collection, hcollection, -⟩ := names_inCollection h
        rw [hcollection]
        rfl
    have hheld : (c.held (layout contexts).length).filter (fun place => !place.inCollection.isNone) = [] :=
      List.filter_eq_nil_iff.mpr fun place h => by
        rw [held_notInCollection h]
        exact Bool.false_ne_true
    have hown : (c.ownLexEnv lexEnvs).filter (fun place => !place.inCollection.isNone) = [] :=
      @ownLexEnv_filter c lexEnvs _ false fun _ => rfl
    have hrest := ih (c.outerLexEnvs lexEnvs)
    rw [releasedPlaces] at hrest
    rw [releasedPlaces, placesOf, List.filter_append, List.filter_append, Context.released, List.filter_append, hnames,
      hheld, hown, hrest, List.nil_append, List.append_nil, List.flatMap_cons]

theorem names_disjoint {contexts : List Context} (h : (contexts.filterMap Context.collection?).Nodup) :
    (contexts.flatMap (Context.names collections)).Nodup := by
  induction contexts with
  | nil => exact List.nodup_nil
  | cons c contexts ih =>
    rw [List.flatMap_cons]
    refine List.nodup_append'.mpr ⟨names_nodup collections c, ih ?_, ?_⟩
    · exact h.sublist ((List.sublist_cons_self c contexts).filterMap _)
    · intro place hmem hrest
      obtain ⟨collection, hcollection, hown⟩ := names_inCollection hmem
      obtain ⟨other, hother, hname⟩ := List.mem_flatMap.mp hrest
      obtain ⟨collection', hcollection', hown'⟩ := names_inCollection hname
      rw [hcollection] at hcollection'
      rw [List.filterMap_cons_some hown] at h
      refine (List.nodup_cons.mp h).1 (List.mem_filterMap.mpr ⟨other, hother, ?_⟩)
      rw [hown', ← hcollection']

/-- Nothing is released twice. -/
theorem releasedPlaces_nodup (hlexEnvs : lexEnvs.Nodup) (hcollections : (contexts.filterMap Context.collection?).Nodup) :
    (releasedPlaces collections contexts lexEnvs).Nodup := by
  refine (List.filter_append_perm (fun place => place.inCollection.isNone) _).nodup_iff.mp ?_
  rw [releasedPlaces_filter, releasedPlaces_names]
  refine List.nodup_append'.mpr ⟨places_nodup contexts hlexEnvs, names_disjoint hcollections, ?_⟩
  intro place hplace hname
  obtain ⟨c, -, hc⟩ := List.mem_flatMap.mp hname
  obtain ⟨collection, hcollection, -⟩ := names_inCollection hc
  have hfiltered : place ∈ (releasedPlaces collections contexts lexEnvs).filter fun place => place.inCollection.isNone := by
    rw [releasedPlaces_filter]
    exact hplace
  have hnone := (List.mem_filter.mp hfiltered).2
  rw [hcollection] at hnone
  cases hnone

/-! ## What is marked -/

/-- All values of the contexts of variable length are objects. -/
def ItemsAreObjects (contexts : List Context) : Prop :=
  ∀ c ∈ contexts, c.type.isVariableLength = true → ∀ value ∈ c.values, ecmaIsValueObject value = true

theorem mem_heldValues : place ∈ heldValues contexts ↔
    ∃ above c below, contexts = above ++ c :: below ∧ place ∈ c.held (layout below).length := by
  induction contexts with
  | nil =>
    constructor
    · intro h
      cases h
    · rintro ⟨above, c, below, h, -⟩
      cases above <;> cases h
  | cons first contexts ih =>
    rw [heldValues, List.mem_append, ih]
    constructor
    · rintro (h | ⟨above, c, below, rfl, h⟩)
      · exact ⟨[], first, contexts, rfl, h⟩
      · exact ⟨first :: above, c, below, rfl, h⟩
    · rintro ⟨above, c, below, hcontexts, h⟩
      cases above with
      | nil =>
        obtain ⟨rfl, rfl⟩ := List.cons.inj hcontexts
        exact .inl h
      | cons next above =>
        obtain ⟨rfl, rfl⟩ := List.cons.inj hcontexts
        exact .inr ⟨above, c, below, rfl, h⟩

theorem item_mem_itemsFrom {position value : Nat} {values : List Nat} (h : .item position value ∈ itemsFrom base values) :
    value ∈ values := by
  induction values with
  | nil => cases h
  | cons first rest ih =>
    rcases List.mem_cons.mp h with h | h
    · injection h with _ hvalue
      rw [hvalue]
      exact List.mem_cons_self
    · exact List.mem_cons_of_mem first (ih h)

theorem mem_itemsFrom {value : Nat} {values : List Nat} (base : Nat) (h : value ∈ values) :
    ∃ position, .item position value ∈ itemsFrom base values := by
  induction values with
  | nil => cases h
  | cons first rest ih =>
    rcases List.mem_cons.mp h with rfl | h
    · exact ⟨_, List.mem_cons_self⟩
    · obtain ⟨position, hmem⟩ := ih h
      exact ⟨position, List.mem_cons_of_mem _ hmem⟩

theorem mem_held_item {position value : Nat} (h : .item position value ∈ c.held base) :
    c.type.isVariableLength = true ∧ value ∈ c.values := by
  rw [Context.held] at h
  split at h
  case isTrue hvariable => exact ⟨hvariable, item_mem_itemsFrom h⟩
  case isFalse =>
    obtain ⟨k, -, hk⟩ := List.mem_filterMap.mp h
    obtain ⟨value, hplace, -⟩ := valueAt_position hk
    cases hplace

/-- The values that are marked without a check are those of the contexts of variable length. -/
theorem itemsAreObjects_iff :
    ItemsAreObjects contexts ↔
      ∀ position value, .item position value ∈ heldValues contexts → ecmaIsValueObject value = true := by
  constructor
  · intro h position value hmem
    obtain ⟨above, c, below, rfl, hheld⟩ := mem_heldValues.mp hmem
    obtain ⟨hvariable, hvalue⟩ := mem_held_item hheld
    exact h c (List.mem_append_right above List.mem_cons_self) hvariable value hvalue
  · intro h c hc hvariable value hvalue
    obtain ⟨above, below, rfl⟩ := List.append_of_mem hc
    obtain ⟨position, hitem⟩ := mem_itemsFrom (layout below).length hvalue
    refine h position value (mem_heldValues.mpr ⟨above, c, below, rfl, ?_⟩)
    rw [Context.held, if_pos hvariable]
    exact hitem

/-- On values where every unchecked one is an object, marking is a visit of the objects among them. -/
theorem foldlM_markPlace {σ : Type} (visit : σ → Place → Option σ) {values : List Place}
    (hposition : ∀ place ∈ values, ∃ position, place.position = some position)
    (hobjects : ∀ position value, .item position value ∈ values → ecmaIsValueObject value = true) (s : σ) :
    values.foldlM (markPlace visit) s = (values.filter Place.isObjectValue).foldlM visit s := by
  induction values generalizing s with
  | nil => rfl
  | cons place values ih =>
    have hrest (s : σ) : values.foldlM (markPlace visit) s = (values.filter Place.isObjectValue).foldlM visit s :=
      ih (fun place h => hposition place (List.mem_cons_of_mem _ h))
        (fun position value h => hobjects position value (List.mem_cons_of_mem _ h)) s
    have hmark : markPlace visit s place = if place.isObjectValue then visit s place else some s := by
      obtain ⟨position, hat⟩ := hposition place List.mem_cons_self
      cases place with
      | item position value =>
        have hobject := hobjects position value List.mem_cons_self
        rw [markPlace, Place.isObjectValue, if_pos hobject, if_pos hobject]
      | value => rfl
      | lexEnv | name | collection => cases hat
    rw [List.foldlM_cons, hmark, List.filter_cons]
    cases place.isObjectValue with
    | true =>
      rw [if_pos rfl, if_pos rfl, List.foldlM_cons]
      congr 1
      funext s
      exact hrest s
    | false => exact hrest s

/-- Marking fails at an unchecked value that is no object. -/
theorem foldlM_markPlace_objects {σ : Type} {visit : σ → Place → Option σ} {values : List Place} {s : σ}
    (h : (values.foldlM (markPlace visit) s).isSome) {position value : Nat} (hmem : .item position value ∈ values) :
    ecmaIsValueObject value = true := by
  induction values generalizing s with
  | nil => cases hmem
  | cons place values ih =>
    rw [List.foldlM_cons] at h
    rcases List.mem_cons.mp hmem with rfl | hmem
    · rw [markPlace] at h
      split at h
      case isTrue hobject => exact hobject
      case isFalse => cases h
    · cases hmark : markPlace visit s place with
      | none =>
        rw [hmark] at h
        cases h
      | some s =>
        rw [hmark] at h
        exact ih h hmem

theorem foldlM_isSome {σ α : Type} {act : σ → α → Option σ} {l : List α} (hact : ∀ s, ∀ a ∈ l, (act s a).isSome) (s : σ) :
    (l.foldlM act s).isSome := by
  induction l generalizing s with
  | nil => rfl
  | cons a l ih =>
    obtain ⟨s', hs'⟩ := Option.isSome_iff_exists.mp (hact s a List.mem_cons_self)
    rw [List.foldlM_cons, hs']
    exact ih (fun s a h => hact s a (List.mem_cons_of_mem _ h)) s'

theorem heldValues_position (h : place ∈ heldValues contexts) : ∃ position, place.position = some position := by
  obtain ⟨above, c, below, -, hheld⟩ := mem_heldValues.mp h
  obtain ⟨position, hposition, -⟩ := held_position hheld
  exact ⟨position, hposition⟩

/-- The objects among the visited values. -/
theorem places_isObjectValue (contexts : List Context) (lexEnvs : List Nat) :
    (places contexts lexEnvs).filter Place.isObjectValue = (heldValues contexts).filter Place.isObjectValue := by
  induction contexts generalizing lexEnvs with
  | nil => rfl
  | cons c contexts ih =>
    have hown : (c.ownLexEnv lexEnvs).filter Place.isObjectValue = [] :=
      @ownLexEnv_filter c lexEnvs _ false fun _ => rfl
    have hrest := ih (c.outerLexEnvs lexEnvs)
    rw [places] at hrest
    rw [places, placesOf, heldValues, List.filter_append, List.filter_append, List.filter_append, hown, hrest,
      List.nil_append]

/-! ## The walks together -/

/-- The contexts of a suspended frame, with the lexical environments from the current one outwards, and the collections
of the for-in contexts, which are of property names. -/
structure Suspended where
  contexts : List Context
  lexEnvs : List Nat
  collections : Nat → List Nat
  nonempty : contexts ≠ []
  depth : (layout contexts).length < 2 ^ 16
  enough : countLexEnvs contexts < lexEnvs.length
  lexEnvs_nodup : lexEnvs.Nodup
  collections_nodup : (contexts.filterMap Context.collection?).Nodup
  names : ∀ c ∈ contexts, ∀ collection, c.collection? = some collection →
    ∀ value ∈ collections collection, ecmaIsValueObject value = false

namespace Suspended

variable (f : Suspended)

/-- The words of the contexts. -/
def stack : List Nat := layout f.contexts

/-- The lexical environment of a context, in order, or a value that a context holds. -/
def Holds (place : Place) : Prop :=
  ∃ above c below, f.contexts = above ++ c :: below ∧
    (place ∈ c.ownLexEnv (f.lexEnvs.drop (countLexEnvs above)) ∨ place ∈ c.held (layout below).length)

/-- A name that a for-in context has left, or its collection. -/
def Names (place : Place) : Prop := ∃ c ∈ f.contexts, place ∈ c.names f.collections

/-- The frame when all contexts are left. -/
def left : Frame := ⟨f.lexEnvs.drop (countLexEnvs f.contexts), 0, []⟩

/-- Repeated `vm_stack_context_abort`. -/
def abort {σ : Type} (visit : σ → Place → Option σ) (s : σ) : Option (Frame × σ) :=
  abortContexts f.collections visit f.stack.length ⟨f.lexEnvs, f.stack.length, f.stack⟩ s

end Suspended

/-- The walks through the contexts agree: the places that `vm_ref_lex_env_chain` visits are what the contexts own and hold,
each once; those with an object on the stack are marked, and all are released. -/
structure Balanced (f : Suspended) (visited released : List Place) : Prop where
  refs : ∀ {σ : Type} (visit : σ → Place → Option σ) (s : σ),
    visitLexEnvChain visit f.stack.length f.lexEnvs f.stack s = leaving [] (visited.foldlM visit s)
  visitedOnce : visited.Nodup ∧ ∀ place, place ∈ visited ↔ f.Holds place
  marks : ∀ {σ : Type} (visit : σ → Place → Option σ) (s : σ),
    markContexts visit f.stack.length f.stack s = leaving [] ((visited.filter Place.isObjectValue).foldlM visit s)
  releases : ∀ {σ : Type} (visit : σ → Place → Option σ) (s : σ),
    f.abort visit s = leaving f.left (released.foldlM visit s)
  releasedOnce : released.Nodup ∧ ∀ place, place ∈ released ↔ f.Holds place ∨ f.Names place
  restores : ∀ {maxRef : Nat} {refs refs' : Nat → Nat} {left : List Nat},
    vmRefLexEnvChain maxRef f.lexEnvs f.stack true refs = some (left, refs') →
      left = [] ∧ (∀ x, refs' x = refs x + (visited.filterMap Place.object).count x) ∧
      vmRefLexEnvChain maxRef f.lexEnvs f.stack false refs' = some ([], refs) ∧
      f.abort releasePlace refs' = some (f.left, refs)
  resumes : ∀ {maxRef : Nat} {refs refs' : Nat → Nat} {left : List Nat}, (∀ x, refs x ≤ maxRef) →
    vmRefLexEnvChain maxRef f.lexEnvs f.stack false refs = some (left, refs') →
      left = [] ∧ vmRefLexEnvChain maxRef f.lexEnvs f.stack true refs' = some ([], refs)

namespace Suspended

variable (f : Suspended)

/-- What `vm_ref_lex_env_chain` visits. -/
def visited : List Place := places f.contexts f.lexEnvs

/-- What repeated `vm_stack_context_abort` releases. -/
def released : List Place := releasedPlaces f.collections f.contexts f.lexEnvs

theorem visitLexEnvChain_eq {σ : Type} (visit : σ → Place → Option σ) (s : σ) :
    visitLexEnvChain visit f.stack.length f.lexEnvs f.stack s = leaving [] (f.visited.foldlM visit s) :=
  visitLexEnvChain_layout visit f.contexts f.nonempty _ (length_le_layout f.contexts) f.lexEnvs f.enough s

theorem vmRefLexEnvChain_eq (maxRef : Nat) (doRef : Bool) (refs : Nat → Nat) :
    vmRefLexEnvChain maxRef f.lexEnvs f.stack doRef refs =
      leaving [] ((f.visited.filterMap Place.object).foldlM (if doRef then ecmaRefObject maxRef else ecmaDerefObject)
        refs) := by
  rw [vmRefLexEnvChain, visitLexEnvChain_eq, foldlM_atObject]

theorem abort_eq {σ : Type} (visit : σ → Place → Option σ) (s : σ) :
    f.abort visit s = leaving f.left (f.released.foldlM visit s) :=
  abortContexts_layout visit f.contexts _ (length_le_layout f.contexts) f.lexEnvs f.enough f.depth s

/-- No object is among the names, so the objects that are released are those that are visited. -/
theorem released_object : f.released.filterMap Place.object = f.visited.filterMap Place.object := by
  have hnames : ∀ place ∈ f.released, place.inCollection.isNone = false → place.object = none := by
    intro place hmem hcollection
    have hname : place ∈ f.released.filter fun place => !place.inCollection.isNone :=
      List.mem_filter.mpr ⟨hmem, by rw [hcollection]; rfl⟩
    rw [released, releasedPlaces_names] at hname
    obtain ⟨c, hc, hname⟩ := List.mem_flatMap.mp hname
    rw [Context.names] at hname
    split at hname
    case isFalse => cases hname
    case isTrue hforIn =>
      rcases List.mem_append.mp hname with hname | hname
      · obtain ⟨entry, hentry, rfl⟩ := List.mem_map.mp hname
        have hvalue : entry.1 ∈ f.collections (c.values.getD 0 0) :=
          List.fst_mem_of_mem_zipIdx (List.mem_of_mem_drop hentry)
        have hobject := f.names c hc _ (if_pos hforIn) _ hvalue
        show ecmaGetObjectFromValue entry.1 = none
        rw [ecmaGetObjectFromValue, hobject]
        rfl
      · rw [List.mem_singleton.mp hname]
        rfl
  rw [visited, ← @releasedPlaces_filter f.collections f.contexts f.lexEnvs, ← released]
  revert hnames
  generalize f.released = places
  induction places with
  | nil => intro _; rfl
  | cons place places ih =>
    intro hnames
    have hrest := ih fun place h => hnames place (List.mem_cons_of_mem _ h)
    rw [List.filter_cons]
    cases hcollection : place.inCollection.isNone with
    | true =>
      rw [if_pos rfl, List.filterMap_cons, List.filterMap_cons, hrest]
    | false =>
      rw [if_neg Bool.false_ne_true, List.filterMap_cons_none (hnames place List.mem_cons_self hcollection), hrest]

theorem mem_released {place : Place} : place ∈ f.released ↔ f.Holds place ∨ f.Names place := by
  rw [released, releasedPlaces, mem_placesOf]
  constructor
  · rintro ⟨above, c, below, hcontexts, hown | hmem⟩
    · exact .inl ⟨above, c, below, hcontexts, .inl hown⟩
    · rcases List.mem_append.mp hmem with hname | hheld
      · refine .inr ⟨c, ?_, hname⟩
        rw [hcontexts]
        exact List.mem_append_right above List.mem_cons_self
      · exact .inl ⟨above, c, below, hcontexts, .inr hheld⟩
  · rintro (⟨above, c, below, hcontexts, hown | hheld⟩ | ⟨c, hc, hname⟩)
    · exact ⟨above, c, below, hcontexts, .inl hown⟩
    · exact ⟨above, c, below, hcontexts, .inr (List.mem_append_right _ hheld)⟩
    · obtain ⟨above, below, hcontexts⟩ := List.append_of_mem hc
      exact ⟨above, c, below, hcontexts, .inr (List.mem_append_left _ hname)⟩

theorem balanced (h : ItemsAreObjects f.contexts) : Balanced f f.visited f.released where
  refs visit s := f.visitLexEnvChain_eq visit s
  visitedOnce := ⟨places_nodup f.contexts f.lexEnvs_nodup, fun _ => mem_placesOf⟩
  marks visit s := by
    rw [visited, places_isObjectValue, ← foldlM_markPlace visit (fun place h => heldValues_position h)
      (itemsAreObjects_iff.mp h)]
    exact markContexts_layout visit f.contexts f.nonempty _ (length_le_layout f.contexts) s
  releases visit s := f.abort_eq visit s
  releasedOnce := ⟨releasedPlaces_nodup f.lexEnvs_nodup f.collections_nodup, fun _ => f.mem_released⟩
  restores {maxRef refs refs' left} hrefs := by
    rw [vmRefLexEnvChain_eq] at hrefs
    obtain ⟨rfl, hfold⟩ := leaving_eq_some hrefs
    have hback : (f.visited.filterMap Place.object).foldlM ecmaDerefObject refs' = some refs := deref_ref hfold
    refine ⟨rfl, fun x => congrFun (ref_all hfold) x, ?_, ?_⟩
    · rw [vmRefLexEnvChain_eq]
      show leaving [] ((f.visited.filterMap Place.object).foldlM ecmaDerefObject refs') = _
      rw [hback]
      rfl
    · rw [abort_eq, releasePlace, foldlM_atObject, released_object, hback]
      rfl
  resumes {maxRef refs refs' left} hmax hrefs := by
    rw [vmRefLexEnvChain_eq] at hrefs
    obtain ⟨rfl, hfold⟩ := leaving_eq_some hrefs
    refine ⟨rfl, ?_⟩
    rw [vmRefLexEnvChain_eq]
    show leaving [] ((f.visited.filterMap Place.object).foldlM (ecmaRefObject maxRef) refs') = _
    rw [ref_deref hmax hfold]
    rfl

end Suspended

theorem leaving_isSome {β σ : Type} (left : β) (result : Option σ) : (leaving left result).isSome = result.isSome := by
  cases result <;> rfl

/-- The loop through the contexts fails exactly at an unchecked value that is no object. -/
theorem markContexts_isSome_iff {σ : Type} {visit : σ → Place → Option σ} (hvisit : ∀ s place, (visit s place).isSome)
    {contexts : List Context} (hne : contexts ≠ []) (s : σ) :
    (markContexts visit (layout contexts).length (layout contexts) s).isSome ↔ ItemsAreObjects contexts := by
  rw [markContexts_layout visit contexts hne _ (length_le_layout contexts), leaving_isSome]
  constructor
  · intro h
    exact itemsAreObjects_iff.mpr fun _ _ hmem => foldlM_markPlace_objects h hmem
  · intro h
    rw [foldlM_markPlace visit (fun _ hmem => heldValues_position hmem) (itemsAreObjects_iff.mp h)]
    exact foldlM_isSome (fun s place _ => hvisit s place) s

theorem Balanced.itemsAreObjects {f : Suspended} {visited released : List Place} (h : Balanced f visited released) :
    ItemsAreObjects f.contexts := by
  have hvisit (s : Unit) (place : Place) : (some ()).isSome := rfl
  rw [← markContexts_isSome_iff hvisit f.nonempty ()]
  show (markContexts _ f.stack.length f.stack ()).isSome
  rw [h.marks, leaving_isSome]
  exact foldlM_isSome (fun s place _ => hvisit s place) ()

/-- `ecma_gc_mark_executable_object` on a frame that is not running. -/
theorem ecmaGcMarkExecutableObject_isSome_iff {σ : Type} (visited : σ → Nat → σ) (object : ExecutableObject)
    (contexts : List Context) (hcontexts : object.contexts = layout contexts)
    (hinactive : object.suspended = true ∨ object.doAwaitOrYield = true)
    (htasks : ∀ task ∈ object.tasks, ecmaIsValueObject task.promise = true) (s : σ) :
    (ecmaGcMarkExecutableObject visited object s).isSome ↔ ItemsAreObjects contexts := by
  have htask : ∀ s, ∀ task ∈ object.tasks, (markTask visited s task).isSome := by
    intro s task hmem
    rw [markTask, ecmaGetObjectFromValue, if_pos (htasks task hmem)]
    rfl
  have hqueue : (markTasks visited object s).isSome := by
    rw [markTasks]
    split
    · exact foldlM_isSome htask s
    · rfl
  have hrunning : ¬ (!object.suspended && !object.doAwaitOrYield) = true := by
    rcases hinactive with h | h <;> simp [h]
  have hcontext (s : σ) : (markContextDepth visited object.contexts s).isSome ↔ ItemsAreObjects contexts := by
    rw [markContextDepth, hcontexts]
    cases contexts with
    | nil =>
      constructor
      · intro _ c hc
        cases hc
      · intro _
        rfl
    | cons c contexts =>
      rw [if_pos (layout_length_pos c contexts), Option.isSome_map]
      refine markContexts_isSome_iff (fun s place => ?_) (List.cons_ne_nil _ _) s
      rw [atObject]
      cases place.object <;> rfl
  obtain ⟨s₁, hs₁⟩ := Option.isSome_iff_exists.mp hqueue
  rw [ecmaGcMarkExecutableObject, hs₁]
  simp only [Option.bind_eq_bind, Option.bind_some, if_neg hrunning]
  rw [← hcontext]
  cases markContextDepth visited object.contexts _ <;> rfl

/-- The walks agree if and only if the contexts of variable length hold objects only. -/
theorem balanced_iff (f : Suspended) : (∃ visited released, Balanced f visited released) ↔ ItemsAreObjects f.contexts := by
  constructor
  · rintro ⟨visited, released, h⟩
    exact h.itemsAreObjects
  · intro h
    exact ⟨f.visited, f.released, f.balanced h⟩

/-- A frame that has the value 5 in the context of an object pattern: `({ a: x[yield] } = 5)`. -/
def objectPatternOfFive : Suspended where
  contexts := [{
    type := .objInit
    hasLexEnv := false
    closeIterator := false
    endOffset := 2
    values := [5 <<< 4]
    fixedLength := by decide
    variableLength := by decide
    fits := by decide }]
  lexEnvs := [1]
  collections _ := []
  nonempty := List.cons_ne_nil _ _
  depth := by decide
  enough := by decide
  lexEnvs_nodup := by decide
  collections_nodup := by decide
  names _ _ _ _ _ h := by cases h

/-- It is not balanced: the collector takes the value for an object. -/
theorem objectPatternOfFive_unbalanced : ¬ ∃ visited released, Balanced objectPatternOfFive visited released := by
  rintro ⟨visited, released, h⟩
  have hobject := h.itemsAreObjects _ List.mem_cons_self rfl _ List.mem_cons_self
  exact absurd hobject (by decide)

end VmStack
end JJS
