import JJS.Lib.Fuel
import JJS.Hashset.Basic
import Mathlib.Data.List.Nodup
import Mathlib.Data.List.Perm.Basic
import Mathlib.Tactic.IntervalCases

/-!
# JJS.Hashset.Runs

When the loops of the string literal pool end. Every operation of a run ends just when each search it
makes has a stop at home or on its orbit (`hashset_ends_iff`). The capacity 1024 is a power of two,
where the orbit is the whole table, so the first 716 insertions always end (`ends_of_inserts_le`). The
next one grows the table to 1536 buckets, where an orbit has 1024 of them while the table takes 1075
strings before it grows again: a pool that fills an orbit makes a lookup run for ever
(`hashset_not_ends`).
-/

namespace JJS
namespace Hashset

open Probe Fuel

/-! ## Runs -/

inductive Op where
  | insert (s : EcmaString) (alloc : Bool)
  | get (s : EcmaString)
  | getRaw (key : List Byte)

/-- The table after an operation; `none` when a loop of it does not end with the fuel. -/
def step (fuel : Nat) (t : Table) : Op → Option Table
  | .insert s alloc => (ecmaHashsetInsert fuel t s alloc).map Prod.snd
  | .get s => (ecmaHashsetGet fuel t s).map fun _ => t
  | .getRaw key => (ecmaHashsetGetRaw fuel t key).map fun _ => t

def run (fuel : Nat) (t : Table) : List Op → Option Table
  | [] => some t
  | op :: ops => (step fuel t op).bind fun t => run fuel t ops

/-- Each string finds an empty bucket at home or on its orbit, in the table it is inserted into. -/
def InsertsMeet (t : Table) : List EcmaString → Prop
  | [] => True
  | s :: rest => Reaches t (ecmaStringHash s) Option.isNone ∧
      ∀ fuel t', ecmaHashsetInsertInternal fuel t s = some t' → InsertsMeet t' rest

/-- The searches of an operation have a stop at home or on the orbit; growing inserts all the strings
into a new table. -/
def Meets (t : Table) : Op → Prop
  | .insert s alloc =>
    if ecmaHashsetNeedToGrow t then
      alloc = true → InsertsMeet (ecmaHashsetInit (grownCapacity t)) (t.items ++ [s])
    else InsertsMeet t [s]
  | .get s => Reaches t (ecmaStringHash s) (stopsAt s)
  | .getRaw key => Reaches t (litUtf8StringCalcHash key) (stopsAtChars key)

/-- Every operation meets the condition in the table before it. -/
def RunMeets (t : Table) : List Op → Prop
  | [] => True
  | op :: ops => Meets t op ∧ ∀ fuel t', step fuel t op = some t' → RunMeets t' ops

/-! ## The operations as fuelled computations -/

variable {t t' : Table}

theorem mono_search (t : Table) (hash : BitVec 32) (stop : Option EcmaString → Bool) :
    Mono fun n => search n t hash stop := by
  intro n m i hle h
  exact search_mono hle h

theorem insertInternal_eq (fuel : Nat) (t : Table) (s : EcmaString) :
    ecmaHashsetInsertInternal fuel t s = (search fuel t (ecmaStringHash s) Option.isNone).map
      fun i => ⟨t.buckets.set i (some s), t.size + 1⟩ := by
  unfold ecmaHashsetInsertInternal
  cases search fuel t (ecmaStringHash s) Option.isNone with
  | none => rfl
  | some i => rfl

theorem mono_insertInternal (t : Table) (s : EcmaString) : Mono fun n => ecmaHashsetInsertInternal n t s := by
  simp only [insertInternal_eq]
  exact mono_map (mono_search t _ _)

theorem insertAll_cons (fuel : Nat) (t : Table) (s : EcmaString) (rest : List EcmaString) :
    insertAll fuel t (s :: rest) = (ecmaHashsetInsertInternal fuel t s).bind fun t => insertAll fuel t rest := by
  rw [insertAll]
  cases ecmaHashsetInsertInternal fuel t s with
  | none => rfl
  | some t => rfl

theorem mono_insertAll (ss : List EcmaString) : ∀ (t : Table), Mono fun n => insertAll n t ss := by
  induction ss with
  | nil => intro t; exact mono_const (some t)
  | cons s rest ih =>
    intro t
    simp only [insertAll_cons]
    exact mono_bind (mono_insertInternal t s) ih

theorem insertAll_append (fuel : Nat) (ss rest : List EcmaString) :
    ∀ (t : Table), insertAll fuel t (ss ++ rest) = (insertAll fuel t ss).bind fun t => insertAll fuel t rest := by
  induction ss with
  | nil => intro t; rfl
  | cons s ss ih =>
    intro t
    rw [List.cons_append, insertAll_cons, insertAll_cons, Option.bind_assoc]
    congr 1
    funext t
    exact ih t

/-- An insertion that does not fail is a sequence of insertions without growing. -/
theorem step_insert (fuel : Nat) (t : Table) (s : EcmaString) (alloc : Bool) :
    step fuel t (.insert s alloc) =
      if ecmaHashsetNeedToGrow t then
        if !alloc then some t else insertAll fuel (ecmaHashsetInit (grownCapacity t)) (t.items ++ [s])
      else insertAll fuel t [s] := by
  have hone : ∀ t, insertAll fuel t [s] = ecmaHashsetInsertInternal fuel t s := by
    intro t
    rw [insertAll_cons]
    cases ecmaHashsetInsertInternal fuel t s with
    | none => rfl
    | some t => rfl
  simp only [step, ecmaHashsetInsert, hone, insertAll_append, ecmaHashsetGrow]
  cases ecmaHashsetNeedToGrow t with
  | false =>
    simp only [Bool.false_eq_true, if_false, Option.map_map]
    exact Option.map_id'
  | true =>
    cases alloc with
    | false => rfl
    | true =>
      simp only [if_true, Bool.not_true, Bool.false_eq_true, if_false]
      cases insertAll fuel (ecmaHashsetInit (grownCapacity t)) t.items with
      | none => rfl
      | some u =>
        simp only [Option.map_map, Option.bind_some]
        exact Option.map_id'

theorem mono_step (t : Table) (op : Op) : Mono fun n => step n t op := by
  cases op with
  | insert s alloc =>
    simp only [step_insert]
    split
    · split
      · exact mono_const (some t)
      · exact mono_insertAll _ _
    · exact mono_insertAll _ _
  | get s =>
    simp only [step, ecmaHashsetGet, Option.map_map]
    exact mono_map (mono_search t _ _)
  | getRaw key =>
    simp only [step, ecmaHashsetGetRaw, Option.map_map]
    exact mono_map (mono_search t _ _)

theorem mono_run (ops : List Op) : ∀ (t : Table), Mono fun n => run n t ops := by
  induction ops with
  | nil => intro t; exact mono_const (some t)
  | cons op ops ih =>
    intro t
    exact mono_bind (mono_step t op) ih

/-! ## The capacity -/

theorem capacity_init (n : Nat) : (ecmaHashsetInit n).capacity = n := List.length_replicate

theorem insertInternal_cases {fuel : Nat} {s : EcmaString} (hcap : 2 ≤ t.capacity)
    (h : ecmaHashsetInsertInternal fuel t s = some t') :
    ∃ i < t.capacity, t.bucket i = none ∧ t' = ⟨t.buckets.set i (some s), t.size + 1⟩ := by
  rw [insertInternal_eq] at h
  obtain ⟨i, hi, rfl⟩ := Option.map_eq_some_iff.mp h
  obtain ⟨hstop, hlt⟩ := search_spec hcap hi
  exact ⟨i, hlt, Option.isNone_iff_eq_none.mp hstop, rfl⟩

theorem capacity_insertInternal {fuel : Nat} {s : EcmaString}
    (h : ecmaHashsetInsertInternal fuel t s = some t') : t'.capacity = t.capacity := by
  rw [insertInternal_eq] at h
  obtain ⟨i, -, rfl⟩ := Option.map_eq_some_iff.mp h
  exact List.length_set

theorem capacity_insertAll {fuel : Nat} {ss : List EcmaString} :
    ∀ {t : Table}, insertAll fuel t ss = some t' → t'.capacity = t.capacity := by
  induction ss with
  | nil => intro t h; cases h; rfl
  | cons s rest ih =>
    intro t h
    rw [insertAll_cons] at h
    obtain ⟨u, hu, hrest⟩ := Option.bind_eq_some_iff.mp h
    rw [ih hrest, capacity_insertInternal hu]

theorem grownCapacity_ge (hcap : 2 ≤ t.capacity) : 2 ≤ grownCapacity t := by
  unfold grownCapacity uint32Max
  omega

theorem capacity_step {fuel : Nat} {op : Op} (hcap : 2 ≤ t.capacity) (h : step fuel t op = some t') :
    2 ≤ t'.capacity := by
  cases op with
  | insert s alloc =>
    rw [step_insert] at h
    split at h
    · split at h
      · cases h; exact hcap
      · rw [capacity_insertAll h, capacity_init]; exact grownCapacity_ge hcap
    · rw [capacity_insertAll h]; exact hcap
  | get s =>
    obtain ⟨-, -, rfl⟩ := Option.map_eq_some_iff.mp h
    exact hcap
  | getRaw key =>
    obtain ⟨-, -, rfl⟩ := Option.map_eq_some_iff.mp h
    exact hcap

/-! ## When a run ends -/

theorem ends_insertAll_iff (ss : List EcmaString) : ∀ {t : Table}, 2 ≤ t.capacity →
    ((Ends fun n => insertAll n t ss) ↔ InsertsMeet t ss) := by
  induction ss with
  | nil => intro t _; exact ⟨fun _ => trivial, fun _ => ends_const t⟩
  | cons s rest ih =>
    intro t hcap
    simp only [insertAll_cons, InsertsMeet]
    rw [ends_bind_iff (mono_insertInternal t s) (mono_insertAll rest)]
    have hfirst : (Ends fun n => ecmaHashsetInsertInternal n t s) ↔
        Reaches t (ecmaStringHash s) Option.isNone := by
      simp only [insertInternal_eq, ends_map_iff]
      exact exists_search_iff hcap
    rw [hfirst]
    refine and_congr_right fun _ => forall_congr' fun n => forall_congr' fun u => ?_
    refine imp_congr_right fun hu => ih ?_
    rw [capacity_insertInternal hu]
    exact hcap

theorem ends_step_iff {op : Op} (hcap : 2 ≤ t.capacity) : (Ends fun n => step n t op) ↔ Meets t op := by
  cases op with
  | insert s alloc =>
    simp only [step_insert, Meets]
    split
    · cases alloc with
      | false => simpa using ends_const t
      | true =>
        have hgrown : 2 ≤ (ecmaHashsetInit (grownCapacity t)).capacity := by
          rw [capacity_init]
          exact grownCapacity_ge hcap
        simpa using ends_insertAll_iff (t.items ++ [s]) hgrown
    · exact ends_insertAll_iff [s] hcap
  | get s =>
    simp only [step, ecmaHashsetGet, Option.map_map, ends_map_iff, Meets]
    exact exists_search_iff hcap
  | getRaw key =>
    simp only [step, ecmaHashsetGetRaw, Option.map_map, ends_map_iff, Meets]
    exact exists_search_iff hcap

theorem ends_run_iff (ops : List Op) : ∀ {t : Table}, 2 ≤ t.capacity →
    ((Ends fun n => run n t ops) ↔ RunMeets t ops) := by
  induction ops with
  | nil => intro t _; exact ⟨fun _ => trivial, fun _ => ends_const t⟩
  | cons op ops ih =>
    intro t hcap
    simp only [run, RunMeets]
    rw [ends_bind_iff (mono_step t op) (mono_run ops), ends_step_iff hcap]
    refine and_congr_right fun _ => forall_congr' fun n => forall_congr' fun u => ?_
    exact imp_congr_right fun hu => ih (capacity_step hcap hu)

/-- All the loops of a run of the pool end just when every search of it has a stop at home or on its
orbit. -/
theorem hashset_ends_iff (ops : List Op) :
    (Ends fun fuel => run fuel (ecmaHashsetInit ecmaStringLiteralPoolSize) ops) ↔
      RunMeets (ecmaHashsetInit ecmaStringLiteralPoolSize) ops :=
  ends_run_iff ops (by rw [capacity_init]; decide)

/-! ## Before the table grows -/

theorem bucket_eq_iff {i : Nat} {o : Option EcmaString} (hi : i < t.capacity) :
    t.bucket i = o ↔ t.buckets[i]? = some o := by
  obtain ⟨a, ha⟩ : ∃ a, t.buckets[i]? = some a := ⟨_, List.getElem?_eq_getElem hi⟩
  rw [Table.bucket, List.getD_eq_getElem?_getD, ha, Option.getD_some, Option.some_inj]

theorem length_items_set {l : List (Option EcmaString)} {i : Nat} {s : EcmaString} (h : l[i]? = some none) :
    (l.set i (some s)).reduceOption.length = l.reduceOption.length + 1 := by
  induction l generalizing i with
  | nil => cases h
  | cons o l ih =>
    cases i with
    | zero =>
      cases h
      simp [List.reduceOption_cons_of_none]
    | succ i =>
      have hrest := ih h
      cases o with
      | none => simpa [List.reduceOption_cons_of_none] using hrest
      | some a => simpa [List.reduceOption_cons_of_some] using hrest

/-- The table before it grows, with `n` strings in it. -/
def Small (t : Table) (n : Nat) : Prop :=
  t.capacity = ecmaStringLiteralPoolSize ∧ t.size = n ∧ t.items.length = n

theorem reaches_of_small {n : Nat} (h : Small t n) (hn : n < 1024) (hash : BitVec 32)
    {stop : Option EcmaString → Bool} (hstop : stop none = true) : Reaches t hash stop := by
  obtain ⟨hcap, -, hlen⟩ := h
  have hnone : none ∈ t.buckets := by
    refine List.reduceOption_length_lt_iff.mp ?_
    have hitems : t.buckets.reduceOption.length = n := hlen
    have hbuckets : t.buckets.length = 1024 := hcap
    omega
  obtain ⟨j, hj, hget⟩ := List.mem_iff_getElem.mp hnone
  have hbounds := probeIndex_bounds hash (t := t) (by rw [hcap]; decide)
  refine .inr ⟨j, hj, ?_, ?_⟩
  · rw [(bucket_eq_iff hj).mpr (by rw [List.getElem?_eq_getElem hj, hget]), hstop]
  · have hpow : t.capacity = 2 ^ 10 := hcap
    rw [hpow] at hbounds ⊢
    exact onOrbit_two_pow hbounds.1 (by omega)

theorem needToGrow_of_small {n : Nat} (h : Small t n) (hn : n < 716) : ecmaHashsetNeedToGrow t = false := by
  obtain ⟨hcap, hsize, -⟩ := h
  have hmod : (n + 1) * 100 % 2 ^ 32 = (n + 1) * 100 := Nat.mod_eq_of_lt (by omega)
  have hlt : ¬ 1024 * 70 % 2 ^ 32 ≤ (n + 1) * 100 := by omega
  rw [ecmaHashsetNeedToGrow, hcap, hsize, if_neg (by decide), hmod]
  exact decide_eq_false hlt

theorem small_insert {n fuel : Nat} {s : EcmaString} (h : Small t n)
    (hi : ecmaHashsetInsertInternal fuel t s = some t') : Small t' (n + 1) := by
  obtain ⟨hcap, hsize, hlen⟩ := h
  obtain ⟨i, hlt, hnone, rfl⟩ := insertInternal_cases (by rw [hcap]; decide) hi
  refine ⟨?_, ?_, ?_⟩
  · rw [← hcap]; exact List.length_set
  · rw [← hsize]
  · rw [← hlen]; exact length_items_set ((bucket_eq_iff hlt).mp hnone)

def insertCount : List Op → Nat
  | [] => 0
  | .insert _ _ :: ops => insertCount ops + 1
  | _ :: ops => insertCount ops

theorem runMeets_of_small (ops : List Op) : ∀ {t : Table} {n : Nat}, Small t n → n + insertCount ops ≤ 716 →
    RunMeets t ops := by
  induction ops with
  | nil => intro t n _ _; trivial
  | cons op ops ih =>
    intro t n h hn
    cases op with
    | insert s alloc =>
      simp only [insertCount] at hn
      have hgrow := needToGrow_of_small h (by omega)
      refine ⟨?_, ?_⟩
      · simp only [Meets, hgrow, Bool.false_eq_true, if_false, InsertsMeet]
        exact ⟨reaches_of_small h (by omega) _ rfl, fun _ _ _ => trivial⟩
      · intro fuel u hu
        rw [step_insert, hgrow, if_neg (by decide), insertAll_cons] at hu
        obtain ⟨v, hv, hrest⟩ := Option.bind_eq_some_iff.mp hu
        cases hrest
        exact ih (small_insert h hv) (by omega)
    | get s =>
      refine ⟨reaches_of_small h (by simp only [insertCount] at hn; omega) _ rfl, ?_⟩
      intro fuel u hu
      obtain ⟨-, -, rfl⟩ := Option.map_eq_some_iff.mp hu
      exact ih h hn
    | getRaw key =>
      refine ⟨reaches_of_small h (by simp only [insertCount] at hn; omega) _ rfl, ?_⟩
      intro fuel u hu
      obtain ⟨-, -, rfl⟩ := Option.map_eq_some_iff.mp hu
      exact ih h hn

/-- A pool into which at most 716 strings were inserted never loops for ever. -/
theorem ends_of_inserts_le {ops : List Op} (h : insertCount ops ≤ 716) :
    Ends fun fuel => run fuel (ecmaHashsetInit ecmaStringLiteralPoolSize) ops := by
  refine (ends_run_iff ops (by rw [capacity_init]; decide)).mpr (runMeets_of_small ops (n := 0) ?_ (by omega))
  refine ⟨capacity_init _, rfl, ?_⟩
  simp [Table.items, ecmaHashsetInit]

/-! ## A full orbit -/

/-- The home bucket of a string. -/
def home (capacity : Nat) (s : EcmaString) : Nat := (ecmaStringHash s).toNat % capacity

/-- A table in which every string is in its home bucket. -/
def Homed (t : Table) (ss : List EcmaString) : Prop :=
  t.size = ss.length ∧ ∀ j < t.capacity, ∀ s, t.bucket j = some s ↔ s ∈ ss ∧ home t.capacity s = j

theorem homed_init (n : Nat) : Homed (ecmaHashsetInit n) [] := by
  refine ⟨rfl, ?_⟩
  intro j hj s
  rw [bucket_eq_iff hj]
  simp [ecmaHashsetInit, List.getElem?_replicate]

theorem homed_perm {ss rest : List EcmaString} (h : Homed t ss) (hp : ss.Perm rest) : Homed t rest := by
  refine ⟨by rw [h.1, hp.length_eq], ?_⟩
  intro j hj s
  rw [h.2 j hj s, hp.mem_iff]

theorem homed_insert {ss : List EcmaString} {s : EcmaString} (h : Homed t ss) (hcap : 0 < t.capacity)
    (hfree : home t.capacity s ∉ ss.map (home t.capacity)) (fuel : Nat) :
    ∃ t', ecmaHashsetInsertInternal fuel t s = some t' ∧ t'.capacity = t.capacity ∧ Homed t' (ss ++ [s]) := by
  have hlt : home t.capacity s < t.capacity := Nat.mod_lt _ hcap
  have hnone : t.bucket (home t.capacity s) = none := by
    cases hb : t.bucket (home t.capacity s) with
    | none => rfl
    | some r =>
      obtain ⟨hmem, hhome⟩ := (h.2 _ hlt r).mp hb
      exact absurd (List.mem_map.mpr ⟨r, hmem, hhome⟩) hfree
  have hsearch : search fuel t (ecmaStringHash s) Option.isNone = some (home t.capacity s) := by
    simp only [search]
    exact if_pos (by rw [show t.bucket ((ecmaStringHash s).toNat % t.capacity) = none from hnone]; rfl)
  refine ⟨⟨t.buckets.set (home t.capacity s) (some s), t.size + 1⟩, ?_, List.length_set, ?_, ?_⟩
  · rw [insertInternal_eq, hsearch, Option.map_some]
  · simp only [h.1, List.length_append, List.length_singleton]
  · intro j hj r
    have hcap' : Table.capacity ⟨t.buckets.set (home t.capacity s) (some s), t.size + 1⟩ = t.capacity :=
      List.length_set
    rw [bucket_eq_iff hj]
    rw [hcap'] at hj ⊢
    rw [List.getElem?_set, List.mem_append, List.mem_singleton]
    by_cases hjs : home t.capacity s = j
    · have hlen : home t.capacity s < t.buckets.length := hlt
      rw [if_pos hjs, if_pos hlen, Option.some_inj, Option.some_inj]
      constructor
      · intro hr; subst hr; exact ⟨.inr rfl, hjs⟩
      · intro hr
        cases hr.1 with
        | inl hmem => exact absurd (List.mem_map.mpr ⟨r, hmem, hr.2.trans hjs.symm⟩) hfree
        | inr heq => exact heq.symm
    · rw [if_neg hjs, ← bucket_eq_iff hj, h.2 j hj r]
      constructor
      · intro hr; exact ⟨.inl hr.1, hr.2⟩
      · intro hr
        cases hr.1 with
        | inl hmem => exact ⟨hmem, hr.2⟩
        | inr heq => subst heq; exact absurd hr.2 hjs

theorem homed_insertAll (fuel : Nat) (rest : List EcmaString) :
    ∀ {t : Table} {ss : List EcmaString}, Homed t ss → 0 < t.capacity →
      ((ss ++ rest).map (home t.capacity)).Nodup →
      ∃ t', insertAll fuel t rest = some t' ∧ t'.capacity = t.capacity ∧ Homed t' (ss ++ rest) := by
  induction rest with
  | nil => intro t ss h _ _; exact ⟨t, rfl, rfl, by rwa [List.append_nil]⟩
  | cons s rest ih =>
    intro t ss h hcap hnodup
    have hsplit : ss ++ s :: rest = ss ++ [s] ++ rest := by simp
    have hfree : home t.capacity s ∉ ss.map (home t.capacity) := by
      intro hmem
      rw [List.map_append, List.nodup_append] at hnodup
      exact hnodup.2.2 _ hmem _ List.mem_cons_self rfl
    obtain ⟨u, hu, hucap, hhomed⟩ := homed_insert h hcap hfree fuel
    rw [hsplit] at hnodup ⊢
    obtain ⟨v, hv, hvcap, hvhomed⟩ := ih hhomed (by omega) (by rwa [hucap])
    exact ⟨v, by rw [insertAll_cons, hu, Option.bind_some, hv], by rw [hvcap, hucap], hvhomed⟩

/-- The strings of such a table, in the order of the buckets. -/
theorem items_perm {ss : List EcmaString} (h : Homed t ss) (hcap : 0 < t.capacity)
    (hnodup : (ss.map (home t.capacity)).Nodup) : t.items.Perm ss := by
  have hss : ss.Nodup := List.Nodup.of_map _ hnodup
  have hmem : ∀ s, s ∈ t.items ↔ s ∈ ss := by
    intro s
    rw [Table.items, List.reduceOption_mem_iff, List.mem_iff_getElem?]
    constructor
    · intro hs
      obtain ⟨j, hj⟩ := hs
      have hlt : j < t.capacity := (List.getElem?_eq_some_iff.mp hj).1
      exact ((h.2 j hlt s).mp ((bucket_eq_iff hlt).mpr hj)).1
    · intro hs
      have hlt : home t.capacity s < t.capacity := Nat.mod_lt _ hcap
      exact ⟨_, (bucket_eq_iff hlt).mp ((h.2 _ hlt s).mpr ⟨hs, rfl⟩)⟩
  have hitems : t.items.Nodup := by
    rw [Table.items, List.reduceOption, List.Nodup, List.pairwise_filterMap, List.pairwise_iff_getElem]
    intro i j hi hj hij a ha b hb hab
    subst hab
    have hia := ((h.2 i hi a).mp ((bucket_eq_iff hi).mpr (by rw [List.getElem?_eq_getElem hi]; exact congrArg some ha))).2
    have hja := ((h.2 j hj a).mp ((bucket_eq_iff hj).mpr (by rw [List.getElem?_eq_getElem hj]; exact congrArg some hb))).2
    omega
  exact (List.perm_ext_iff_of_nodup hitems hss).mpr hmem

/-- Insertions that do not make the table grow. -/
theorem homed_run (fuel : Nat) (rest : List EcmaString) :
    ∀ {t : Table} {ss : List EcmaString}, Homed t ss → 0 < t.capacity →
      ((ss ++ rest).map (home t.capacity)).Nodup →
      (∀ u : Table, u.capacity = t.capacity → u.size < ss.length + rest.length → ecmaHashsetNeedToGrow u = false) →
      ∃ t', run fuel t (rest.map fun s => .insert s true) = some t' ∧ t'.capacity = t.capacity ∧
        Homed t' (ss ++ rest) := by
  induction rest with
  | nil => intro t ss h _ _ _; exact ⟨t, rfl, rfl, by rwa [List.append_nil]⟩
  | cons s rest ih =>
    intro t ss h hcap hnodup hgrow
    have hsplit : ss ++ s :: rest = ss ++ [s] ++ rest := by simp
    have hno : ecmaHashsetNeedToGrow t = false :=
      hgrow t rfl (by rw [h.1, List.length_cons]; omega)
    have hone : ((ss ++ [s]).map (home t.capacity)).Nodup := by
      rw [hsplit, List.map_append] at hnodup
      exact hnodup.of_append_left
    obtain ⟨u, hu, hucap, hhomed⟩ := homed_insertAll fuel [s] h hcap hone
    rw [hsplit] at hnodup ⊢
    obtain ⟨v, hv, hvcap, hvhomed⟩ := ih hhomed (by omega) (by rwa [hucap]) (by
      intro w hw hsize
      refine hgrow w (hw.trans hucap) ?_
      simp only [List.length_append, List.length_cons, List.length_nil] at hsize ⊢
      omega)
    refine ⟨v, ?_, by rw [hvcap, hucap], hvhomed⟩
    rw [List.map_cons, run, step_insert, hno, if_neg (by decide), hu, Option.bind_some, hv]

/-- The string of a number literal whose home among 1024 or among 1536 buckets is `j` modulo that number. -/
def literal (j : Nat) : EcmaString := .uint32 (BitVec.ofNat 32 (307200000 + j))

theorem home_literal {j n : Nat} (hj : j < 1536) (hn : n ∣ 307200000) : home n (literal j) = j % n := by
  obtain ⟨k, hk⟩ := hn
  simp only [home, literal, ecmaStringHash, BitVec.toNat_ofNat]
  rw [Nat.mod_eq_of_lt (show 307200000 + j < 2 ^ 32 by omega), hk, Nat.mul_add_mod]

/-- The buckets that are filled before the table grows: 683 in their order and 33 more. -/
def filledFirst : List Nat := (List.range 683).map (fun i => i + i / 2) ++ (List.range 33).map (1026 + 3 * ·)

/-- The buckets that are filled after it has grown for bucket 1125. -/
def filledLast : List Nat := (List.range 136).map (1128 + 3 * ·) ++ (List.range 171).map (1024 + 3 * ·)

def filled : List Nat := filledFirst ++ 1125 :: filledLast

theorem mem_filled_iff {j : Nat} : j ∈ filled ↔ j < 1536 ∧ j % 3 ≠ 2 := by
  simp only [filled, filledFirst, filledLast, List.mem_append, List.mem_cons, List.mem_map, List.mem_range]
  constructor
  · intro h
    rcases h with (⟨i, hi, rfl⟩ | ⟨i, hi, rfl⟩) | rfl | ⟨i, hi, rfl⟩ | ⟨i, hi, rfl⟩ <;> omega
  · intro h
    by_cases hlow : j < 1024
    · exact .inl (.inl ⟨j - j / 3, by omega, by omega⟩)
    · by_cases h1 : j % 3 = 1
      · exact .inr (.inr (.inr ⟨(j - 1024) / 3, by omega, by omega⟩))
      · by_cases hmid : j < 1125
        · exact .inl (.inr ⟨(j - 1026) / 3, by omega, by omega⟩)
        · by_cases heq : j = 1125
          · exact .inr (.inl heq)
          · exact .inr (.inr (.inl ⟨(j - 1128) / 3, by omega, by omega⟩))

theorem nodup_filled : filled.Nodup := by
  have hinj1 : ((List.range 683).map fun i => i + i / 2).Nodup :=
    List.nodup_range.map fun a b (h : a + a / 2 = b + b / 2) => by omega
  have hinj2 : ∀ n c, ((List.range n).map fun i => c + 3 * i).Nodup := by
    intro n c
    exact List.nodup_range.map fun a b (h : c + 3 * a = c + 3 * b) => by omega
  simp only [filled, filledFirst, filledLast, List.nodup_append, List.nodup_cons, List.mem_append, List.mem_cons,
    List.mem_map, List.mem_range, hinj1, hinj2, true_and]
  refine ⟨?_, ⟨?_, ?_⟩, ?_⟩
  · rintro _ ⟨i, hi, rfl⟩ _ ⟨k, hk, rfl⟩; omega
  · rintro (⟨i, hi, h⟩ | ⟨i, hi, h⟩) <;> omega
  · rintro _ ⟨i, hi, rfl⟩ _ ⟨k, hk, rfl⟩; omega
  · rintro _ (⟨i, hi, rfl⟩ | ⟨i, hi, rfl⟩) _ (rfl | ⟨k, hk, rfl⟩ | ⟨k, hk, rfl⟩) <;> omega

theorem map_home_literal {js : List Nat} {n : Nat} (hjs : ∀ j ∈ js, j < 1536) (hn : n ∣ 307200000) :
    (js.map literal).map (home n) = js.map (· % n) := by
  rw [List.map_map]
  exact List.map_congr_left fun j hj => home_literal (hjs j hj) hn

theorem filled_lt : ∀ j ∈ filled, j < 1536 := fun _ hj => (mem_filled_iff.mp hj).1

/-- After growing every string of the pool has a home of its own. -/
theorem nodup_homes : ((filled.map literal).map (home 1536)).Nodup := by
  rw [map_home_literal filled_lt ⟨200000, rfl⟩, List.map_congr_left fun j hj => Nat.mod_eq_of_lt (filled_lt j hj),
    List.map_id']
  exact nodup_filled

theorem nodup_homes_first : ((filledFirst.map literal).map (home 1024)).Nodup := by
  have hlt : ∀ j ∈ filledFirst, j < 1536 := fun j hj => filled_lt j (List.mem_append_left _ hj)
  rw [map_home_literal hlt ⟨300000, rfl⟩]
  refine List.Nodup.map_on ?_ (nodup_filled.of_append_left)
  simp only [filledFirst, List.mem_append, List.mem_map, List.mem_range]
  have hlow : ∀ i < 683, (i + i / 2) % 1024 = i + i / 2 := by intro i hi; omega
  have hhigh : ∀ i < 33, (1026 + 3 * i) % 1024 = 2 + 3 * i := by intro i hi; omega
  rintro _ (⟨i, hi, rfl⟩ | ⟨i, hi, rfl⟩) _ (⟨k, hk, rfl⟩ | ⟨k, hk, rfl⟩) h
  · rwa [hlow i hi, hlow k hk] at h
  · rw [hlow i hi, hhigh k hk] at h; omega
  · rw [hhigh i hi, hlow k hk] at h; omega
  · rw [hhigh i hi, hhigh k hk] at h; omega

theorem needToGrow_eq {n k : Nat} (hcap : t.capacity = n) (hsize : t.size = k) (hn : n < 2000) (hk : k < 2000) :
    ecmaHashsetNeedToGrow t = decide (n * 70 ≤ (k + 1) * 100) := by
  rw [ecmaHashsetNeedToGrow, hcap, hsize, if_neg (by unfold uint32Max; omega), Nat.mod_eq_of_lt (by omega),
    Nat.mod_eq_of_lt (by omega)]

/-- The operations that fill the pool. -/
def fillOps : List Op := (filled.map literal).map fun s => .insert s true

theorem run_append (fuel : Nat) (ops rest : List Op) :
    ∀ (t : Table), run fuel t (ops ++ rest) = (run fuel t ops).bind fun t => run fuel t rest := by
  induction ops with
  | nil => intro t; rfl
  | cons op ops ih =>
    intro t
    rw [List.cons_append, run, run, Option.bind_assoc]
    congr 1
    funext t
    exact ih t

/-- The pool that is filled has 1536 buckets, and all of them but every third are in use. -/
theorem run_fillOps (fuel : Nat) :
    ∃ t, run fuel (ecmaHashsetInit ecmaStringLiteralPoolSize) fillOps = some t ∧ t.capacity = 1536 ∧
      Homed t (filled.map literal) := by
  have hfirst : filledFirst.length = 716 := by simp [filledFirst]
  have hlast : filledLast.length = 307 := by simp [filledLast]
  have hlit : filled.map literal = filledFirst.map literal ++ literal 1125 :: filledLast.map literal := by
    simp [filled]
  -- the first 716 strings fill the table of 1024 buckets as far as it goes
  obtain ⟨t1, hrun1, hcap1, hhomed1⟩ := homed_run fuel (filledFirst.map literal)
    (homed_init ecmaStringLiteralPoolSize) (by rw [capacity_init]; decide)
    (by rw [capacity_init, List.nil_append]; exact nodup_homes_first)
    (by
      intro u hu hsize
      rw [capacity_init] at hu
      simp only [List.length_nil, List.length_map, hfirst] at hsize
      rw [needToGrow_eq hu rfl (by decide) (by omega)]
      exact decide_eq_false (by unfold ecmaStringLiteralPoolSize; omega))
  rw [capacity_init] at hcap1
  rw [List.nil_append] at hhomed1
  have hsize1 : t1.size = 716 := by rw [hhomed1.1, List.length_map, hfirst]
  -- the next one makes it grow
  have hgrow : ecmaHashsetNeedToGrow t1 = true := by
    rw [needToGrow_eq hcap1 hsize1 (by decide) (by decide)]
    decide
  have hgrown : grownCapacity t1 = 1536 := by
    rw [grownCapacity, hcap1]
    decide
  have hperm : (t1.items ++ [literal 1125]).Perm (filledFirst.map literal ++ [literal 1125]) :=
    (items_perm hhomed1 (by rw [hcap1]; decide) (by rw [hcap1]; exact nodup_homes_first)).append_right _
  have hnodup2 : ((filledFirst.map literal ++ [literal 1125]).map (home 1536)).Nodup := by
    have hall := nodup_homes
    rw [hlit, List.append_cons, List.map_append] at hall
    exact hall.of_append_left
  obtain ⟨t2, hrun2, hcap2, hhomed2⟩ := homed_insertAll fuel (t1.items ++ [literal 1125]) (homed_init 1536)
    (by rw [capacity_init]; decide) (by
      rw [capacity_init, List.nil_append]
      exact ((hperm.map (home 1536)).nodup_iff).mpr hnodup2)
  rw [capacity_init] at hcap2
  rw [List.nil_append] at hhomed2
  have hstep : step fuel t1 (.insert (literal 1125) true) = some t2 := by
    rw [step_insert, hgrow, if_pos rfl, hgrown]
    exact hrun2
  -- and the last 307 fill what is left of the orbit
  obtain ⟨t3, hrun3, hcap3, hhomed3⟩ := homed_run fuel (filledLast.map literal) (homed_perm hhomed2 hperm)
    (by rw [hcap2]; decide) (by
      rw [hcap2, ← List.append_cons, ← hlit]
      exact nodup_homes)
    (by
      intro u hu hsize
      rw [hcap2] at hu
      simp only [List.length_append, List.length_singleton, List.length_map, hfirst, hlast] at hsize
      rw [needToGrow_eq hu rfl (by decide) (by omega)]
      exact decide_eq_false (by omega))
  refine ⟨t3, ?_, by rw [hcap3, hcap2], ?_⟩
  · rw [fillOps, hlit, List.map_append, List.map_cons, run_append, hrun1, Option.bind_some, run, hstep,
      Option.bind_some, hrun3]
  · rw [hlit, List.append_cons]
    exact hhomed3

/-- The literal whose probe index is 3, at home in bucket 0. -/
def lost : EcmaString := .uint32 471555072#32

/-- From 3 on a search among 1536 buckets never reaches every third bucket. -/
theorem not_onOrbit {j : Nat} (hj : j % 3 = 2) : ¬ OnOrbit 1536 3 j := by
  intro h
  obtain ⟨y, -, hy⟩ := h
  have h3 : y ^ 2 + 8 * 3 ≡ 8 * j + (2 * 3 - 1) ^ 2 [MOD 3] := hy.of_dvd (by decide)
  unfold Nat.ModEq at h3
  have hsq : y ^ 2 % 3 = 2 := by omega
  rw [Nat.pow_mod] at hsq
  have hlt := Nat.mod_lt y (show 0 < 3 by decide)
  interval_cases hy3 : y % 3 <;> simp at hsq

/-- The pool is filled by 1024 insertions that end, and then no fuel is enough to look up one more
literal. -/
theorem hashset_not_ends :
    (Ends fun fuel => run fuel (ecmaHashsetInit ecmaStringLiteralPoolSize) fillOps) ∧
    ¬ Ends fun fuel => run fuel (ecmaHashsetInit ecmaStringLiteralPoolSize) (fillOps ++ [.get lost]) := by
  constructor
  · obtain ⟨t, ht, -⟩ := run_fillOps 0
    exact ⟨0, Option.isSome_iff_exists.mpr ⟨t, ht⟩⟩
  · intro hends
    obtain ⟨t, ht, hcap, hhomed⟩ := run_fillOps 0
    simp only [run_append] at hends
    rw [ends_bind_iff (mono_run _ _) (mono_run _)] at hends
    have hget := hends.2 0 t ht
    rw [ends_run_iff _ (by rw [hcap]; decide)] at hget
    have hfull : ∀ j < 1536, j % 3 ≠ 2 → stopsAt lost (t.bucket j) = false := by
      intro j hj h3
      have hmem : literal j ∈ filled.map literal := List.mem_map_of_mem (mem_filled_iff.mpr ⟨hj, h3⟩)
      have hhome : home t.capacity (literal j) = j := by
        rw [hcap, home_literal hj ⟨200000, rfl⟩, Nat.mod_eq_of_lt hj]
      rw [(hhomed.2 j (by rw [hcap]; exact hj) _).mpr ⟨hmem, hhome⟩]
      have hne : literal j ≠ lost := by
        intro heq
        have hnum := congrArg (fun s => (ecmaStringHash s).toNat) heq
        simp only [literal, lost, ecmaStringHash, BitVec.toNat_ofNat] at hnum
        omega
      simpa [stopsAt] using hne
    have hprobe : ecmaHashsetProbeIndex (ecmaStringHash lost) 1536 = 3 := by decide
    have hhome : (ecmaStringHash lost).toNat % 1536 = 0 := by decide
    rcases hget.1 with hstop | ⟨j, hj, hstop, horbit⟩
    · rw [hcap, hhome, hfull 0 (by decide) (by decide)] at hstop
      cases hstop
    · rw [hcap] at hj
      rw [hcap, hprobe] at horbit
      by_cases h3 : j % 3 = 2
      · exact not_onOrbit h3 horbit
      · rw [hfull j hj h3] at hstop
        cases hstop

end Hashset
end JJS
