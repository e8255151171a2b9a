import JJS.Literals.Text

/-!
# JJS.Literals.Intern

Which literals are interned. After any run of `ecma_find_or_create_literal_string` with growing in between, a text
and its value belong together, in both directions, unless the text is a late external magic string: its descriptor
equals no other one, so each call makes a new one (`runs_kept`), and it does not have the characters of the text
(`Recorded.text_iff`). So the literals of a run are interned just when no late magic string is among them
(`interned_iff`).
-/

namespace JJS
namespace Literals

open Utf8 Lit Strings
open Hashset (litUtf8StringCalcHash ecmaStringLiteralPoolSize)

/-! ## Runs -/

/-- No value of the pool has the address. -/
def Pool.Fresh (pool : Pool) (address : Nat) : Prop := ∀ d, EcmaString.heap address d ∉ pool.items

/-- The texts and the values of the calls of a run, and the pool after it. The pool may grow at any point, besides
when a call makes it grow. A descriptor is allocated at an address that no literal has. -/
inductive Runs (context : Context) : List (List Byte × EcmaString) → Pool → Prop where
  | start : Runs context [] (ecmaHashsetInit ecmaStringLiteralPoolSize)
  | call {log : List (List Byte × EcmaString)} {pool pool' : Pool} {fuel address : Nat} {s : List Byte} {isAscii : Bool}
      {value : EcmaString} : Runs context log pool → pool.Fresh address →
      ecmaFindOrCreateLiteralString context fuel pool address s isAscii true = some (some value, pool') →
      Runs context (log ++ [(s, value)]) pool'
  | grow {log : List (List Byte × EcmaString)} {pool pool' : Pool} {fuel : Nat} : Runs context log pool →
      ecmaHashsetGrow fuel pool = some pool' → Runs context log pool'

/-- Saving the values one by one keeps one for each text. -/
def SavedOnce (log : List (List Byte × EcmaString)) : Prop :=
  ∃ saved : List (List Byte × EcmaString), saved.Sublist log ∧
    (log.map Prod.snd).foldl ecmaSaveLiteralsAppendValue [] = saved.map Prod.snd ∧
    (saved.map Prod.fst).Nodup ∧ ∀ entry ∈ log, entry.1 ∈ saved.map Prod.fst

/-- The calls of a run return the same value for the same text only, with its characters, a snapshot saves each text
once, and growing keeps every entry once. -/
structure Interned (context : Context) (log : List (List Byte × EcmaString)) (pool : Pool) : Prop where
  same : log.Pairwise fun a b => samePointer a.2 b.2 = true ↔ a.1 = b.1
  text : ∀ entry ∈ log, HasText context entry.1 entry.2
  saved : SavedOnce log
  once : pool.items.Pairwise fun a b => samePointer a b = false
  grown {fuel : Nat} {pool' : Pool} : ecmaHashsetGrow fuel pool = some pool' → pool'.items.Perm pool.items

/-! ## Entries of the pool -/

section Entries

variable {context : Context} {address : Nat} {s t : List Byte} {d e : Descriptor} {value : EcmaString}

/-- The descriptor is that of a literal with the text. -/
inductive Denotes (context : Context) (s : List Byte) : Descriptor → Prop where
  | number {n : BitVec 32} : (∀ address, ecmaFindSpecialString context address s = some (.heap address (.uint32InDesc n))) →
      s = numeral n.toNat → Denotes context s (.uint32InDesc n)
  | chars {d : Descriptor} {n : Nat} : (∀ address, ecmaFindSpecialString context address s = none) → Holds s n d →
      Denotes context s d

/-- The descriptor of a late external magic string. -/
def IsLate (context : Context) (d : Descriptor) : Prop :=
  ∃ k, 0 < k ∧ k < context.exArray.length ∧ d = .magicStringEx (BitVec.ofNat 32 (k + context.magicStringCount))

theorem Denotes.unique (h : Denotes context s d) (h' : Denotes context t d) : s = t := by
  cases h with
  | number _ heq =>
    cases h' with
    | number _ heq' => rw [heq, heq']
    | chars _ hholds => cases hholds.chars
  | chars _ hholds =>
    cases h' with
    | number _ _ => cases hholds.chars
    | chars _ hholds' =>
      have hsame := hholds.chars
      rw [hholds'.chars] at hsame
      cases hsame
      rfl

theorem Denotes.not_late (h : Denotes context s d) : ¬ IsLate context d := by
  intro hlate
  obtain ⟨k, -, -, heq⟩ := hlate
  cases h with
  | number _ _ => cases heq
  | chars _ hholds =>
    rw [heq] at hholds
    cases hholds.chars

/-- The text of a literal in the pool has no direct value. -/
theorem Denotes.not_direct (h : Denotes context s d) {type : DirectType} {n : Nat} :
    ecmaFindSpecialString context address s ≠ some (.direct type n) := by
  intro hfind
  cases h with
  | number hnumber _ =>
    rw [hnumber address] at hfind
    cases hfind
  | chars hnone _ =>
    rw [hnone address] at hfind
    cases hfind

theorem Denotes.text_not_late (h : Denotes context s d) : ¬ LateMagic context s := by
  intro hlate
  obtain ⟨k, -, -, hfind⟩ := find_late hlate 0
  cases h with
  | number hnumber _ =>
    rw [hnumber 0] at hfind
    cases hfind
  | chars hnone _ =>
    rw [hnone 0] at hfind
    cases hfind

theorem holds_text {n : Nat} (h : Holds s n d) (context : Context) (address : Nat) :
    HasText context s (.heap address d) := by
  intro flags uint32Buffer
  refine ⟨h.getChars context flags uint32Buffer address, ?_⟩
  have hchars := h.chars
  cases d with
  | heapUtf8 hash size length buffer =>
    rw [ecmaCompareGetStringChars, Option.some_inj, Prod.mk.injEq, Prod.mk.injEq] at hchars
    exact hchars.2.1
  | longOrExternal hash size length string =>
    rw [ecmaCompareGetStringChars, Option.some_inj, Prod.mk.injEq, Prod.mk.injEq] at hchars
    exact hchars.2.1
  | heapAscii hash size buffer =>
    rw [ecmaCompareGetStringChars, Option.some_inj, Prod.mk.injEq, Prod.mk.injEq] at hchars
    exact hchars.2.1
  | uint32InDesc number => cases hchars
  | magicStringEx id => cases hchars

theorem Denotes.text (h : Denotes context s d) (address : Nat) : HasText context s (.heap address d) := by
  cases h with
  | number _ heq =>
    intro flags uint32Buffer
    rw [heq]
    exact uint32Chars_text flags uint32Buffer _
  | chars _ hholds => exact holds_text hholds context address

/-! ## Comparison with an entry -/

/-- A number in a descriptor is equal to the same number only. -/
theorem stopsAt_number {a : Nat} (hne : a ≠ address) (n : BitVec 32) :
    stopsAt (.heap address (.uint32InDesc n)) (some (.heap a d)) = true ↔ d = .uint32InDesc n := by
  rw [stopsAt, compare_heap hne]
  cases d with
  | uint32InDesc m =>
    show (if m ≠ n then false else true) = true ↔ _
    by_cases heq : m = n
    · rw [heq, if_neg (fun h => h rfl)]
      exact iff_of_true rfl rfl
    · rw [if_pos heq]
      exact iff_of_false Bool.false_ne_true (fun h => heq (Descriptor.uint32InDesc.inj h))
  | heapUtf8 hash size length buffer =>
    refine iff_of_false ?_ (fun h => by cases h)
    split
    · exact Bool.false_ne_true
    · exact Bool.false_ne_true
  | longOrExternal hash size length string =>
    refine iff_of_false ?_ (fun h => by cases h)
    split
    · exact Bool.false_ne_true
    · exact Bool.false_ne_true
  | heapAscii hash size buffer =>
    refine iff_of_false ?_ (fun h => by cases h)
    split
    · exact Bool.false_ne_true
    · exact Bool.false_ne_true
  | magicStringEx id =>
    refine iff_of_false ?_ (fun h => by cases h)
    split
    · exact Bool.false_ne_true
    · exact Bool.false_ne_true

/-- The descriptor of an external magic string is equal to no other descriptor. -/
theorem stopsAt_late {a : Nat} (hne : a ≠ address) (hlate : IsLate context e) :
    stopsAt (.heap address e) (some (.heap a d)) = false := by
  obtain ⟨k, -, -, heq⟩ := hlate
  have hlong : ecmaCompareEcmaStringsLongpath d e = false := by
    rw [ecmaCompareEcmaStringsLongpath, heq]
    cases ecmaCompareGetStringChars d with
    | none => rfl
    | some chars => rfl
  rw [stopsAt, compare_heap hne, hlong, heq]
  split
  · rfl
  · split
    · rfl
    · rfl

/-- The characters of an entry are compared in full. -/
theorem stopsAtChars_text {key : List Byte} (h : HasText context t value) :
    stopsAtChars context key (some value) = true ↔ t = key := by
  obtain ⟨hchars, hsize⟩ := h noFlags true
  simp only [stopsAtChars, hchars, hsize]
  rw [Bool.and_eq_true, Bool.and_eq_true, beq_iff_eq, beq_iff_eq, beq_iff_eq]
  constructor
  · intro h
    exact (eq_of_memcmp h.1.1.symm h.2).symm
  · intro h
    rw [h]
    exact ⟨⟨rfl, rfl⟩, memcmp_self key⟩

theorem stopsAtChars_late {a : Nat} {key : List Byte} (hkey : key ≠ []) (hlate : IsLate context d) :
    stopsAtChars context key (some (.heap a d)) = false := by
  obtain ⟨k, hpos, hk, heq⟩ := hlate
  simp only [stopsAtChars]
  rw [heq, late_chars hpos hk]
  cases key with
  | nil => exact absurd rfl hkey
  | cons b rest =>
    rw [List.head?_cons, List.head?_nil, Bool.and_assoc]
    exact Bool.and_false _

end Entries

/-! ## The pool of a run -/

section Kept

variable {context : Context} {pool pool' : Pool} {address fuel : Nat} {s t : List Byte} {value : EcmaString}

/-- What every pool of a run keeps. -/
structure Kept (context : Context) (pool : Pool) : Prop where
  placed : Placed pool
  entries : ∀ item ∈ pool.items, ∃ a d, item = .heap a d ∧ ((∃ s, Denotes context s d) ∨ IsLate context d)
  once : pool.items.Pairwise fun a b => samePointer a b = false
  distinct {s : List Byte} {a a' : Nat} {d d' : Descriptor} : .heap a d ∈ pool.items → .heap a' d' ∈ pool.items →
    Denotes context s d → Denotes context s d' → a = a'

/-- The value of a call on the text, as long as the pool has it. -/
inductive Recorded (context : Context) (pool : Pool) (s : List Byte) : EcmaString → Prop where
  | direct {type : DirectType} {n : Nat} :
      (∀ address, ecmaFindSpecialString context address s = some (.direct type n)) → Recorded context pool s (.direct type n)
  | entry {a : Nat} {d : Descriptor} : .heap a d ∈ pool.items → Denotes context s d → Recorded context pool s (.heap a d)
  | late {a : Nat} {d : Descriptor} : .heap a d ∈ pool.items → LateMagic context s → IsLate context d →
      Recorded context pool s (.heap a d)

theorem kept_init (context : Context) : Kept context (ecmaHashsetInit ecmaStringLiteralPoolSize) where
  placed := placed_init (by decide)
  entries := by
    intro item hitem
    rw [items_init] at hitem
    cases hitem
  once := by
    rw [items_init]
    exact List.Pairwise.nil
  distinct := by
    intro s a a' d d' hin
    rw [items_init] at hin
    cases hin

theorem fresh_init (address : Nat) : (ecmaHashsetInit ecmaStringLiteralPoolSize).Fresh address := by
  intro d hin
  rw [items_init] at hin
  cases hin

theorem samePointer_comm (a b : EcmaString) : samePointer a b = samePointer b a := by
  cases a with
  | direct type n =>
    cases b with
    | direct type' n' => rw [samePointer, samePointer, Bool.beq_comm, Bool.beq_comm (a := n)]
    | heap a' d' => rfl
  | heap a d =>
    cases b with
    | direct type' n' => rfl
    | heap a' d' => exact Bool.beq_comm

/-- One address belongs to one entry. -/
theorem Kept.descriptor (h : Kept context pool) {a : Nat} {d d' : Descriptor} (hd : .heap a d ∈ pool.items)
    (hd' : .heap a d' ∈ pool.items) : d = d' := by
  by_contra hne
  have hsymm : Std.Symm fun a b : EcmaString => samePointer a b = false :=
    ⟨fun a b hab => by rw [samePointer_comm]; exact hab⟩
  have hdiff := h.once.forall hd hd' (fun heq => hne (by cases heq; rfl))
  rw [samePointer, beq_self_eq_true] at hdiff
  cases hdiff

/-- Growing keeps the entries. -/
theorem Kept.perm (h : Kept context pool) (hplaced : Placed pool') (hperm : pool'.items.Perm pool.items) :
    Kept context pool' where
  placed := hplaced
  entries := fun item hitem => h.entries item (hperm.mem_iff.mp hitem)
  once := by
    refine (hperm.pairwise_iff ?_).mpr h.once
    intro a b hab
    rw [samePointer_comm]
    exact hab
  distinct := fun hin hin' => h.distinct (hperm.mem_iff.mp hin) (hperm.mem_iff.mp hin')

/-- A new entry: a literal that the pool does not have, or a late magic string. -/
theorem Kept.insert {d : Descriptor} (h : Kept context pool) (hfresh : pool.Fresh address) (hplaced : Placed pool')
    (hperm : pool'.items.Perm (.heap address d :: pool.items))
    (hentry : (∃ s, Denotes context s d ∧ ∀ a e, .heap a e ∈ pool.items → ¬ Denotes context s e) ∨ IsLate context d) :
    Kept context pool' where
  placed := hplaced
  entries := by
    intro item hitem
    cases List.mem_cons.mp (hperm.mem_iff.mp hitem) with
    | inl heq =>
      refine ⟨address, d, heq, ?_⟩
      cases hentry with
      | inl hnew => exact Or.inl ⟨_, hnew.choose_spec.1⟩
      | inr hlate => exact Or.inr hlate
    | inr hold => exact h.entries item hold
  once := by
    refine (hperm.pairwise_iff ?_).mpr (List.pairwise_cons.mpr ⟨?_, h.once⟩)
    · intro a b hab
      rw [samePointer_comm]
      exact hab
    · intro item hitem
      cases item with
      | direct type n => rfl
      | heap a e =>
        refine beq_eq_false_iff_ne.mpr fun heq => ?_
        rw [← heq] at hitem
        exact hfresh e hitem
  distinct := by
    intro s a a' e e' hin hin' he he'
    have hnone : ∀ {a e}, .heap a e ∈ pool.items → Denotes context s d → Denotes context s e → False := by
      intro a e hold hd hden
      cases hentry with
      | inl hnew =>
        obtain ⟨t, ht, hnone⟩ := hnew
        rw [ht.unique hd] at hnone
        exact hnone a e hold hden
      | inr hlate => exact hd.not_late hlate
    cases List.mem_cons.mp (hperm.mem_iff.mp hin) with
    | inl heq =>
      cases heq
      cases List.mem_cons.mp (hperm.mem_iff.mp hin') with
      | inl heq => cases heq; rfl
      | inr hold => exact absurd he' fun hden => hnone hold he hden
    | inr hold =>
      cases List.mem_cons.mp (hperm.mem_iff.mp hin') with
      | inl heq => cases heq; exact absurd he fun hden => hnone hold he' hden
      | inr hold' => exact h.distinct hold hold' he he'

theorem Recorded.mono (h : Recorded context pool s value) (hsub : ∀ item ∈ pool.items, item ∈ pool'.items) :
    Recorded context pool' s value := by
  cases h with
  | direct hfind => exact Recorded.direct hfind
  | entry hin hden => exact Recorded.entry (hsub _ hin) hden
  | late hin hlate hd => exact Recorded.late (hsub _ hin) hlate hd

/-! ## One call -/

theorem put_spec {value' : EcmaString} (hplaced : Placed pool)
    (h : put fuel pool value true = some (some value', pool')) :
    value' = value ∧ Placed pool' ∧ pool'.items.Perm (value :: pool.items) := by
  rw [put] at h
  split at h
  · cases h
  · rename_i inserted next hinsert
    cases inserted with
    | false => cases h
    | true =>
      cases h
      exact ⟨rfl, insert_spec hplaced hinsert⟩

/-- A new literal gets an entry. -/
theorem Kept.added {value' : EcmaString} {d : Descriptor} (h : Kept context pool) (hfresh : pool.Fresh address)
    (hput : put fuel pool (.heap address d) true = some (some value', pool'))
    (hentry : (∃ s, Denotes context s d ∧ ∀ a e, .heap a e ∈ pool.items → ¬ Denotes context s e) ∨ IsLate context d) :
    Kept context pool' ∧ (∀ item ∈ pool.items, item ∈ pool'.items) ∧ value' = .heap address d ∧
      .heap address d ∈ pool'.items := by
  obtain ⟨hvalue, hplaced, hperm⟩ := put_spec h.placed hput
  refine ⟨h.insert hfresh hplaced hperm hentry, ?_, hvalue, ?_⟩
  · intro item hin
    exact hperm.mem_iff.mpr (List.mem_cons_of_mem _ hin)
  · exact hperm.mem_iff.mpr List.mem_cons_self

/-- The item is the literal with the text. -/
def Wanted (context : Context) (s : List Byte) (item : EcmaString) : Prop :=
  ∃ a d, item = .heap a d ∧ Denotes context s d

theorem Kept.only (h : Kept context pool) : ∀ item ∈ pool.items, ∀ item' ∈ pool.items,
    Wanted context s item → Wanted context s item' → item = item' := by
  intro item hin item' hin' hwanted hwanted'
  obtain ⟨a, d, heq, hden⟩ := hwanted
  obtain ⟨a', d', heq', hden'⟩ := hwanted'
  rw [heq] at hin
  rw [heq'] at hin'
  have hsame := h.distinct hin hin' hden hden'
  rw [← hsame] at hin'
  rw [heq, heq', ← hsame, h.descriptor hin hin']

/-- `ecma_hashset_get` finds the number when the pool has it. -/
theorem get_number (h : Kept context pool) (hfresh : pool.Fresh address) {n : BitVec 32} {found : Option EcmaString}
    (hfind : ∀ a, ecmaFindSpecialString context a s = some (.heap a (.uint32InDesc n))) (hs : s = numeral n.toNat)
    (hget : ecmaHashsetGet fuel pool (.heap address (.uint32InDesc n)) = some found) :
    (∃ item ∈ pool.items, Wanted context s item ∧ found = some item) ∨
      (∀ item ∈ pool.items, ¬ Wanted context s item) ∧ found = none := by
  obtain ⟨i, hsearch, hfound⟩ := Option.map_eq_some_iff.mp hget
  have hwanted : ∀ a d, Wanted context s (.heap a d) ↔ d = .uint32InDesc n := by
    intro a d
    constructor
    · intro hwanted
      obtain ⟨a', d', heq, hden⟩ := hwanted
      cases heq
      cases hden with
      | number hnumber _ =>
        have hsame := hnumber a
        rw [hfind a] at hsame
        cases hsame
        rfl
      | chars hnone _ =>
        have hsame := hnone a
        rw [hfind a] at hsame
        cases hsame
    · intro heq
      rw [heq]
      exact ⟨a, _, rfl, Denotes.number hfind hs⟩
  rw [← hfound]
  refine search_spec h.placed ?_ ?_ h.only hsearch
  · intro item hin
    obtain ⟨a, d, heq, -⟩ := h.entries item hin
    have hne : a ≠ address := by
      intro hsame
      rw [heq, hsame] at hin
      exact hfresh d hin
    rw [heq, stopsAt_number hne, hwanted]
  · intro item hitem
    obtain ⟨a, d, heq, hden⟩ := id hitem
    rw [heq] at hitem ⊢
    rw [(hwanted a d).mp hitem]
    rfl

/-- `ecma_hashset_get` finds no late magic string. -/
theorem get_late (h : Kept context pool) (hfresh : pool.Fresh address) {e : Descriptor} {found : Option EcmaString}
    (hlate : IsLate context e) (hget : ecmaHashsetGet fuel pool (.heap address e) = some found) : found = none := by
  obtain ⟨i, hsearch, hfound⟩ := Option.map_eq_some_iff.mp hget
  rw [← hfound]
  refine (search_stops h.placed.capacity hsearch).absent ?_
  intro item hin
  obtain ⟨a, d, heq, -⟩ := h.entries item hin
  have hne : a ≠ address := by
    intro hsame
    rw [heq, hsame] at hin
    exact hfresh d hin
  rw [heq]
  exact stopsAt_late hne hlate

/-- `ecma_hashset_get_raw` finds the literal of a text without a special form when the pool has it. -/
theorem getRaw_text (h : Kept context pool) {found : Option EcmaString}
    (hfind : ∀ a, ecmaFindSpecialString context a s = none) (hne : s ≠ [])
    (hget : ecmaHashsetGetRaw context fuel pool s = some found) :
    (∃ item ∈ pool.items, Wanted context s item ∧ found = some item) ∨
      (∀ item ∈ pool.items, ¬ Wanted context s item) ∧ found = none := by
  obtain ⟨i, hsearch, hfound⟩ := Option.map_eq_some_iff.mp hget
  rw [← hfound]
  refine search_spec h.placed ?_ ?_ h.only hsearch
  · intro item hin
    obtain ⟨a, d, heq, hentry⟩ := h.entries item hin
    rw [heq]
    cases hentry with
    | inl hden =>
      obtain ⟨t, hden⟩ := hden
      rw [stopsAtChars_text (hden.text a)]
      constructor
      · intro hsame
        rw [hsame] at hden
        exact ⟨a, d, rfl, hden⟩
      · intro hwanted
        obtain ⟨a', d', heq, hden'⟩ := hwanted
        cases heq
        exact hden.unique hden'
    | inr hlate =>
      rw [stopsAtChars_late hne hlate]
      refine iff_of_false Bool.false_ne_true ?_
      intro hwanted
      obtain ⟨a', d', heq, hden⟩ := hwanted
      cases heq
      exact hden.not_late hlate
  · intro item hwanted
    obtain ⟨a, d, heq, hden⟩ := hwanted
    rw [heq]
    cases hden with
    | number hnumber _ =>
      have hsame := hnumber a
      rw [hfind a] at hsame
      cases hsame
    | chars _ hholds => exact hholds.hash

theorem stringLengthLoop_le (steps : Nat) : ∀ s : List Byte, stringLengthLoop steps s ≤ s.length := by
  induction steps with
  | zero => intro s; exact Nat.zero_le _
  | succ steps ih =>
    intro s
    cases s with
    | nil => exact Nat.le_refl 0
    | cons b rest =>
      have hrest := ih ((b :: rest).drop (litGetUnicodeCharSizeByUtf8FirstByte b))
      have hsize : 1 ≤ litGetUnicodeCharSizeByUtf8FirstByte b := by
        rw [litGetUnicodeCharSizeByUtf8FirstByte]
        split
        · decide
        · split
          · decide
          · decide
      rw [List.length_drop, List.length_cons] at hrest
      rw [stringLengthLoop, List.length_cons]
      omega

/-- A text without a special form gets a descriptor with its characters. -/
theorem created_holds (isAscii : Bool) (hfind : ecmaFindSpecialString context address s = none) (hne : s ≠ []) :
    ∃ d n, Holds s n d ∧ (if isAscii then ecmaNewEcmaStringFromAscii context address s
      else ecmaNewEcmaStringFromUtf8 context address s) = .heap address d := by
  cases isAscii with
  | true =>
    refine ⟨_, _, buffer_holds hne (Nat.le_refl _), ?_⟩
    rw [if_pos rfl, ecmaNewEcmaStringFromAscii, hfind]
  | false =>
    refine ⟨_, _, buffer_holds hne (stringLengthLoop_le s.length s), ?_⟩
    rw [if_neg Bool.false_ne_true, ecmaNewEcmaStringFromUtf8, hfind]
    rfl

/-- After a call on the text: the pool is in order, has its entries still, and has the value. The value for a late
magic string is a new one. -/
structure Called (context : Context) (pool pool' : Pool) (address : Nat) (s : List Byte) (value : EcmaString) : Prop where
  kept : Kept context pool'
  sub : ∀ item ∈ pool.items, item ∈ pool'.items
  recorded : Recorded context pool' s value
  late : LateMagic context s → ∃ d, value = .heap address d

/-- A call that returns the entry of the literal, or makes it. -/
theorem Kept.findOrPut {d : Descriptor} (h : Kept context pool) (hfresh : pool.Fresh address) (hden : Denotes context s d)
    {lookup : Option (Option EcmaString)}
    (hcall : (match lookup with
      | none => none
      | some (some existing) => some (some existing, pool)
      | some none => put fuel pool (.heap address d) true) = some (some value, pool'))
    (hlookup : ∀ found, lookup = some found → (∃ item ∈ pool.items, Wanted context s item ∧ found = some item) ∨
      (∀ item ∈ pool.items, ¬ Wanted context s item) ∧ found = none) :
    Called context pool pool' address s value := by
  have hlate : LateMagic context s → ∃ e, value = .heap address e := fun hbad => absurd hbad hden.text_not_late
  cases lookup with
  | none => cases hcall
  | some found =>
    cases hlookup found rfl with
    | inl hfound =>
      obtain ⟨item, hin, hwanted, heq⟩ := hfound
      obtain ⟨a, e, hitem, he⟩ := hwanted
      rw [heq] at hcall
      cases hcall
      rw [hitem] at hin hlate ⊢
      exact ⟨h, fun _ hin => hin, Recorded.entry hin he, hlate⟩
    | inr hnone =>
      rw [hnone.2] at hcall
      have hnew : ∀ a e, .heap a e ∈ pool.items → ¬ Denotes context s e :=
        fun a e hin he => hnone.1 _ hin ⟨a, e, rfl, he⟩
      obtain ⟨hkept, hsub, hvalue, hin⟩ := h.added hfresh hcall (Or.inl ⟨s, hden, hnew⟩)
      rw [hvalue] at hlate ⊢
      exact ⟨hkept, hsub, Recorded.entry hin hden, hlate⟩

/-- A late magic string is never found, and becomes one more entry. -/
theorem Kept.putLate {e : Descriptor} (h : Kept context pool) (hfresh : pool.Fresh address) (hlate : LateMagic context s)
    (he : IsLate context e)
    (hcall : (match ecmaHashsetGet fuel pool (.heap address e) with
      | none => none
      | some (some existing) => some (some existing, pool)
      | some none => put fuel pool (.heap address e) true) = some (some value, pool')) :
    Called context pool pool' address s value := by
  cases hget : ecmaHashsetGet fuel pool (.heap address e) with
  | none =>
    rw [hget] at hcall
    cases hcall
  | some found =>
    rw [hget, get_late h hfresh he hget] at hcall
    obtain ⟨hkept, hsub, hvalue, hin⟩ := h.added hfresh hcall (Or.inr he)
    rw [hvalue]
    exact ⟨hkept, hsub, Recorded.late hin hlate he, fun _ => ⟨_, rfl⟩⟩

theorem call_spec (h : Kept context pool) (hfresh : pool.Fresh address) {isAscii : Bool}
    (hcall : ecmaFindOrCreateLiteralString context fuel pool address s isAscii true = some (some value, pool')) :
    Called context pool pool' address s value := by
  have hmoved := fun a => find_moved context address a s
  rw [ecmaFindOrCreateLiteralString] at hcall
  cases hfind : ecmaFindSpecialString context address s with
  | some string =>
    rw [hfind] at hcall hmoved
    dsimp only at hcall
    cases string with
    | direct type n =>
      cases hcall
      refine ⟨h, fun _ hin => hin, Recorded.direct hmoved, ?_⟩
      intro hlate
      obtain ⟨k, -, -, hother⟩ := find_late hlate address
      rw [hfind] at hother
      cases hother
    | heap a e =>
      obtain rfl := find_address hfind
      rw [isDirectString, if_neg Bool.false_ne_true] at hcall
      by_cases hlate : LateMagic context s
      · obtain ⟨k, hpos, hk, hother⟩ := find_late hlate a
        rw [hfind] at hother
        cases hother
        exact h.putLate hfresh hlate ⟨k, hpos, hk, rfl⟩ hcall
      · obtain ⟨n, hn, hs⟩ := find_heap hfind hlate
        rw [hn] at hmoved hcall
        exact h.findOrPut hfresh (Denotes.number hmoved hs) hcall (fun found => get_number h hfresh hmoved hs)
  | none =>
    rw [hfind] at hcall hmoved
    dsimp only at hcall
    have hne : s ≠ [] := by
      intro hnil
      rw [hnil, (find_empty_iff context address).mpr rfl] at hfind
      cases hfind
    obtain ⟨d, n, hholds, hcreated⟩ := created_holds isAscii hfind hne
    rw [hcreated] at hcall
    exact h.findOrPut hfresh (Denotes.chars hmoved hholds) hcall (fun found => getRaw_text h hmoved hne)

end Kept

/-! ## A run -/

section Run

variable {context : Context} {pool pool' : Pool} {log : List (List Byte × EcmaString)} {s t : List Byte}
  {v w : EcmaString}

theorem Recorded.text_iff (h : Recorded context pool s v) : HasText context s v ↔ ¬ LateMagic context s := by
  constructor
  · intro htext hlate
    cases h with
    | direct hfind =>
      obtain ⟨k, -, -, hother⟩ := find_late hlate 0
      rw [hfind 0] at hother
      cases hother
    | entry _ hden => exact hden.text_not_late hlate
    | late _ _ hd =>
      obtain ⟨k, hpos, hk, heq⟩ := hd
      have hchars := (htext noFlags true).1
      rw [heq, late_chars hpos hk] at hchars
      exact late_ne_nil hlate hchars.symm
  · intro hlate
    cases h with
    | direct hfind => exact (find_form (hfind 0)).text hlate
    | entry _ hden => exact hden.text _
    | late _ hbad _ => exact absurd hbad hlate

theorem HasText.unique (hs : HasText context s v) (ht : HasText context t v) : s = t :=
  (hs noFlags true).1.symm.trans (ht noFlags true).1

theorem direct_not_late {type : DirectType} {n : Nat}
    (hfind : ∀ address, ecmaFindSpecialString context address s = some (.direct type n)) : ¬ LateMagic context s := by
  intro hlate
  obtain ⟨k, -, -, hother⟩ := find_late hlate 0
  rw [hfind 0] at hother
  cases hother

/-- Two direct values. -/
theorem direct_same {type type' : DirectType} {n n' : Nat}
    (hv : ∀ address, ecmaFindSpecialString context address s = some (.direct type n))
    (hw : ∀ address, ecmaFindSpecialString context address t = some (.direct type' n')) :
    samePointer (.direct type n) (.direct type' n') = true ↔ s = t := by
  have hpointer : samePointer (.direct type n) (.direct type' n') = true ↔
      EcmaString.direct type n = .direct type' n' := by
    rw [samePointer, Bool.and_eq_true, beq_iff_eq, beq_iff_eq, EcmaString.direct.injEq]
  rw [hpointer]
  constructor
  · intro heq
    have hs := (find_form (hv 0)).text (direct_not_late hv)
    have ht := (find_form (hw 0)).text (direct_not_late hw)
    rw [← heq] at ht
    exact hs.unique ht
  · intro heq
    have hsame := hw 0
    rw [← heq, hv 0] at hsame
    exact Option.some.inj hsame

/-- Two values of one pool. Two values of a late magic string are at different addresses. -/
theorem recorded_same (h : Kept context pool) (hv : Recorded context pool s v) (hw : Recorded context pool t w)
    (hlate : LateMagic context t → samePointer v w = false) :
    samePointer v w = true ↔ s = t ∧ ¬ LateMagic context s := by
  by_cases hbad : LateMagic context s
  · refine iff_of_false ?_ (fun hboth => hboth.2 hbad)
    cases hv with
    | direct hfind => exact absurd hbad (direct_not_late hfind)
    | entry _ hden => exact absurd hbad hden.text_not_late
    | late hin _ hd =>
      cases hw with
      | direct _ => exact Bool.false_ne_true
      | entry hin' hden =>
        intro hsame
        rw [← beq_iff_eq.mp hsame] at hin'
        rw [← h.descriptor hin hin'] at hden
        exact hden.not_late hd
      | late _ hbad' _ =>
        rw [hlate hbad']
        exact Bool.false_ne_true
  · rw [and_iff_left hbad]
    cases hv with
    | direct hfind =>
      cases hw with
      | direct hfind' => exact direct_same hfind hfind'
      | @entry a d hin hden =>
        refine iff_of_false Bool.false_ne_true (fun heq => ?_)
        rw [heq] at hfind
        exact hden.not_direct (hfind 0)
      | @late a d hin hbad' hd =>
        refine iff_of_false Bool.false_ne_true (fun heq => ?_)
        exact hbad (by rw [heq]; exact hbad')
    | entry hin hden =>
      cases hw with
      | direct hfind =>
        refine iff_of_false Bool.false_ne_true (fun heq => ?_)
        rw [← heq] at hfind
        exact hden.not_direct (hfind 0)
      | entry hin' hden' =>
        constructor
        · intro hsame
          rw [← beq_iff_eq.mp hsame] at hin'
          rw [← h.descriptor hin hin'] at hden'
          exact hden.unique hden'
        · intro heq
          rw [← heq] at hden'
          exact beq_iff_eq.mpr (h.distinct hin hin' hden hden')
      | late _ hbad' _ =>
        rw [hlate hbad']
        refine iff_of_false Bool.false_ne_true (fun heq => ?_)
        exact hbad (by rw [heq]; exact hbad')
    | late _ hbad' _ => exact absurd hbad' hbad

/-- What holds after every run. -/
theorem runs_kept (h : Runs context log pool) :
    Kept context pool ∧ (∀ entry ∈ log, Recorded context pool entry.1 entry.2) ∧
      log.Pairwise fun a b => samePointer a.2 b.2 = true ↔ a.1 = b.1 ∧ ¬ LateMagic context a.1 := by
  induction h with
  | start => exact ⟨kept_init context, fun entry hin => absurd hin List.not_mem_nil, List.Pairwise.nil⟩
  | @call log pool pool' fuel address s isAscii value _ hfresh hcall ih =>
    obtain ⟨hkept, hrecorded, hsame⟩ := ih
    have hcalled := call_spec hkept hfresh hcall
    have hold : ∀ entry ∈ log, Recorded context pool' entry.1 entry.2 :=
      fun entry hin => (hrecorded entry hin).mono hcalled.sub
    refine ⟨hcalled.kept, ?_, ?_⟩
    · intro entry hin
      cases List.mem_append.mp hin with
      | inl hin => exact hold entry hin
      | inr hin =>
        rw [List.mem_singleton.mp hin]
        exact hcalled.recorded
    · refine List.pairwise_append.mpr ⟨hsame, List.pairwise_singleton _ _, ?_⟩
      intro entry hin last hlast
      rw [List.mem_singleton.mp hlast]
      refine recorded_same hcalled.kept (hold entry hin) hcalled.recorded ?_
      intro hlate
      obtain ⟨d, heq⟩ := hcalled.late hlate
      rw [heq]
      -- the new value is at an address that no value had
      cases hentry : entry.2 with
      | direct type n => rfl
      | heap a e =>
        have hin' : EcmaString.heap a e ∈ pool.items := by
          have hrec := hrecorded entry hin
          rw [hentry] at hrec
          cases hrec with
          | entry hin _ => exact hin
          | late hin _ _ => exact hin
        refine beq_eq_false_iff_ne.mpr fun hsame => ?_
        rw [hsame] at hin'
        exact hfresh e hin'
  | @grow log pool pool' fuel _ hgrow ih =>
    obtain ⟨hkept, hrecorded, hsame⟩ := ih
    obtain ⟨hplaced, hperm⟩ := grow_spec hkept.placed hgrow
    refine ⟨hkept.perm hplaced hperm, ?_, hsame⟩
    intro entry hin
    exact (hrecorded entry hin).mono fun item hitem => hperm.mem_iff.mpr hitem

/-- Saving compares identities, so it keeps one value for each text when these belong together. -/
theorem savedOnce_of_same (h : log.Pairwise fun a b => samePointer a.2 b.2 = true ↔ a.1 = b.1) : SavedOnce log := by
  induction log using List.reverseRecOn with
  | nil => exact ⟨[], List.Sublist.slnil, rfl, List.nodup_nil, fun entry hin => absurd hin List.not_mem_nil⟩
  | append_singleton log last ih =>
    obtain ⟨hold, -, hlast⟩ := List.pairwise_append.mp h
    obtain ⟨saved, hsub, hfold, hnodup, hall⟩ := ih hold
    have hfound : (saved.map Prod.snd).any (fun item => samePointer item last.2) = true ↔ last.1 ∈ saved.map Prod.fst := by
      rw [List.any_map, List.any_eq_true, List.mem_map]
      constructor
      · intro hany
        obtain ⟨entry, hin, hsame⟩ := hany
        exact ⟨entry, hin, (hlast entry (hsub.subset hin) last (List.mem_singleton.mpr rfl)).mp hsame⟩
      · intro hmem
        obtain ⟨entry, hin, heq⟩ := hmem
        exact ⟨entry, hin, (hlast entry (hsub.subset hin) last (List.mem_singleton.mpr rfl)).mpr heq⟩
    rw [SavedOnce, List.map_append, List.foldl_append, hfold, List.map_singleton, List.foldl_cons, List.foldl_nil,
      ecmaSaveLiteralsAppendValue]
    by_cases hmem : last.1 ∈ saved.map Prod.fst
    · rw [if_pos (hfound.mpr hmem)]
      refine ⟨saved, hsub.trans (List.sublist_append_left _ _), rfl, hnodup, ?_⟩
      intro entry hin
      cases List.mem_append.mp hin with
      | inl hin => exact hall entry hin
      | inr hin => rw [List.mem_singleton.mp hin]; exact hmem
    · rw [if_neg (fun hany => hmem (hfound.mp hany))]
      refine ⟨saved ++ [last], hsub.append (List.Sublist.refl _), by rw [List.map_append, List.map_singleton], ?_, ?_⟩
      · rw [List.map_append, List.map_singleton]
        exact List.nodup_append.mpr ⟨hnodup, List.nodup_singleton _, fun a ha b hb hab =>
          hmem (by rw [← List.mem_singleton.mp hb, ← hab]; exact ha)⟩
      · intro entry hin
        rw [List.map_append, List.map_singleton]
        cases List.mem_append.mp hin with
        | inl hin => exact List.mem_append_left _ (hall entry hin)
        | inr hin => rw [List.mem_singleton.mp hin]; exact List.mem_append_right _ List.mem_cons_self

/-- The literals of a run are interned just when none of them is a late magic string. -/
theorem interned_iff (h : Runs context log pool) :
    Interned context log pool ↔ ∀ entry ∈ log, ¬ LateMagic context entry.1 := by
  obtain ⟨hkept, hrecorded, hsame⟩ := runs_kept h
  constructor
  · intro hinterned entry hin
    exact (hrecorded entry hin).text_iff.mp (hinterned.text entry hin)
  · intro hnone
    have hboth : log.Pairwise fun a b => samePointer a.2 b.2 = true ↔ a.1 = b.1 := by
      refine hsame.imp_of_mem ?_
      intro a b ha _ hab
      rw [hab, and_iff_left (hnone a ha)]
    refine ⟨hboth, ?_, savedOnce_of_same hboth, hkept.once, ?_⟩
    · intro entry hin
      exact (hrecorded entry hin).text_iff.mpr (hnone entry hin)
    · intro fuel pool' hgrow
      exact (grow_spec hkept.placed hgrow).2

end Run

/-- A context with room for one direct value of an external magic string, and two such strings. -/
def lateContext : Context where
  cpointer32Bit := false
  externalMinSize := 20
  magicStrings := [[]]
  magicStringCount := 65535
  exArray := [[0x61#8], [0x62#8]]
  magic_empty := rfl
  magic_sorted := by decide
  magic_count := by decide
  magic_direct := by decide
  ex_sorted := by decide
  ex_limit := by decide

/-- The descriptor of the second string, at an address. -/
def lateValue (address : Nat) : EcmaString := .heap address (.magicStringEx 65536#32)

/-- The pool after one call on the second string. -/
def latePool : Pool := ⟨(List.replicate 1024 none).set 0 (some (lateValue 0)), 1⟩

/-- Two calls on a late magic string return different values. -/
theorem late_twice : ∃ pool, Runs lateContext [([0x62#8], lateValue 0), ([0x62#8], lateValue 1)] pool ∧
    samePointer (lateValue 0) (lateValue 1) = false ∧
    ¬ Interned lateContext [([0x62#8], lateValue 0), ([0x62#8], lateValue 1)] pool := by
  have hfirst : Runs lateContext [([0x62#8], lateValue 0)] latePool :=
    @Runs.call _ _ _ _ 1 0 _ true _ Runs.start (fresh_init 0) (by decide +kernel)
  have hsecond : Runs lateContext [([0x62#8], lateValue 0), ([0x62#8], lateValue 1)]
      ⟨latePool.buckets.set 65 (some (lateValue 1)), 2⟩ := by
    refine @Runs.call _ _ _ _ 1 1 _ true _ hfirst ?_ (by decide +kernel)
    have hitems : latePool.items = [lateValue 0] := by decide +kernel
    intro d hin
    rw [hitems, List.mem_singleton, lateValue] at hin
    cases hin
  refine ⟨_, hsecond, rfl, ?_⟩
  intro hinterned
  have hsame := (List.pairwise_pair.mp hinterned.same).mpr rfl
  cases hsame

/-- The literal `70000`, which has a number in its descriptor. -/
def numberText : List Byte := [0x37#8, 0x30#8, 0x30#8, 0x30#8, 0x30#8]

def numberValue : EcmaString := .heap 0 (.uint32InDesc 70000#32)

def numberPool : Pool := ⟨(List.replicate 1024 none).set 368 (some numberValue), 1⟩

/-- Two calls on a number literal return its one entry. -/
theorem interned_number : Interned lateContext [(numberText, numberValue), (numberText, numberValue)] numberPool := by
  have hfirst : Runs lateContext [(numberText, numberValue)] numberPool :=
    @Runs.call _ _ _ _ 1 0 _ true _ Runs.start (fresh_init 0) (by decide +kernel)
  have hsecond : Runs lateContext [(numberText, numberValue), (numberText, numberValue)] numberPool := by
    refine @Runs.call _ _ _ _ 1 1 _ true _ hfirst ?_ (by decide +kernel)
    have hitems : numberPool.items = [numberValue] := by decide +kernel
    intro d hin
    rw [hitems, List.mem_singleton, numberValue] at hin
    cases hin
  have hnumber : ¬ LateMagic lateContext numberText := fun hlate =>
    hlate.not_number 70000 (by decide) (by decide +kernel)
  refine (interned_iff hsecond).mpr ?_
  intro entry hin
  rw [List.mem_cons, List.mem_singleton, or_self] at hin
  rw [hin]
  exact hnumber

end Literals
end JJS
