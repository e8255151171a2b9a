import JJS.Container.Refine

/-!
# JJS.Container.Iterate

Iterators and `forEach` over a Map or a Set while the container is changed.

A run is any interleaving of `set` (`add`), `delete` and `clear` with the creation and the `next` calls of
any number of iterators, and with the rounds of any number of `forEach` loops. `Lawful` reads the trace of a
run against a history that numbers the entries in the order of their insertion: it says which entry each
`next` may yield and when it may report done.

`ecma_op_iterator_set_index` leaves `iterator_index` behind when the index does not fit, and an iterator that
runs into trailing tombstones reports done without giving up its container. `UpToDate` says of the state
before a call that neither matters for it, and a run is lawful when it holds before every call
(`iteration_lawful_when`).
-/

namespace JJS
namespace Container

/-! ## The code -/

/-- `ECMA_ITERATOR_INDEX_LIMIT`. -/
def ecmaIteratorIndexLimit : Nat := 65535

/-- `ecma_iterator_kind_t`. -/
inductive IteratorKind where
  | keys
  | values
  | entries
deriving DecidableEq

/-- A Map or Set iterator object. `iterated` is false when `iterated_value` is `ECMA_VALUE_EMPTY`, and
`nextIndex` is the internal property `LIT_INTERNAL_MAGIC_STRING_ITERATOR_NEXT_INDEX`. -/
structure IteratorObject where
  kind : IteratorKind
  iterated : Bool
  iteratorIndex : Nat
  nextIndex : Option Nat
deriving DecidableEq

/-- `ecma_op_create_iterator_object`. -/
def ecmaOpCreateIteratorObject (kind : IteratorKind) : IteratorObject := ⟨kind, true, 0, none⟩

/-- `ecma_op_iterator_get_index`. -/
def ecmaOpIteratorGetIndex (it : IteratorObject) : Nat :=
  if it.iteratorIndex = ecmaIteratorIndexLimit then it.nextIndex.getD 0 else it.iteratorIndex

/-- `ecma_op_iterator_set_index`. -/
def ecmaOpIteratorSetIndex (it : IteratorObject) (index : Nat) : IteratorObject :=
  if index ≥ ecmaIteratorIndexLimit then { it with nextIndex := some index }
  else { it with iteratorIndex := index }

/-- What an iteration hands out: a key, a value, or both. -/
inductive Item where
  | one (v : EcmaValue)
  | pair (key value : EcmaValue)
deriving DecidableEq

def IteratorKind.item (kind : IteratorKind) (key value : EcmaValue) : Item :=
  match kind with
  | .keys => .one key
  | .values => .one value
  | .entries => .pair key value

/-- The iterator result object, or `undefined` in its place. -/
inductive Outcome where
  | yield (item : Item)
  | done
  | undefined
deriving DecidableEq

/-- The values of `i` in `for (i = index; i < entry_count; i += entry_size)`. -/
def indicesFrom (litId : ContainerId) (b : Buffer) (index : Nat) : List Nat :=
  let entrySize := ecmaOpContainerEntrySize litId
  List.range' index ((b.items.length - index + entrySize - 1) / entrySize) entrySize

/-- The loop of `ecma_op_container_iterator_next`. -/
def nextLoop (litId : ContainerId) (b : Buffer) (it : IteratorObject) : List Nat → Outcome × IteratorObject
  | [] => (.undefined, it)
  | i :: is =>
    if b.items.getD i .empty = .empty then
      if i = b.items.length - ecmaOpContainerEntrySize litId then (.done, it) else nextLoop litId b it is
    else
      (.yield (it.kind.item (b.items.getD i .empty) (ecmaOpContainerGetValue b i litId)),
        ecmaOpIteratorSetIndex it (i + ecmaOpContainerEntrySize litId))

/-- `ecma_op_container_iterator_next`. -/
def ecmaOpContainerIteratorNext (litId : ContainerId) (b : Buffer) (it : IteratorObject) :
    Outcome × IteratorObject :=
  if it.iterated = false then (.done, it)
  else if ecmaOpIteratorGetIndex it = b.items.length then (.done, { it with iterated := false })
  else nextLoop litId b it (indicesFrom litId b (ecmaOpIteratorGetIndex it))

/-- The loop of `ecma_op_container_foreach` up to the next call of the callback. The bound is read again in
every round, and the index the loop goes on from is kept while the callback runs. -/
def foreachLoop (litId : ContainerId) (b : Buffer) : List Nat → Outcome × Option Nat
  | [] => (.done, none)
  | i :: is =>
    if b.items.getD i .empty = .empty then foreachLoop litId b is
    else
      (.yield (.pair (b.items.getD i .empty) (ecmaOpContainerGetValue b i litId)),
        some (i + ecmaOpContainerEntrySize litId))

/-! ## Runs -/

/-- An iterator, or a `forEach` loop with its index until it ends. -/
inductive Cursor where
  | iterator (it : IteratorObject)
  | loop (i : Option Nat)

def Cursor.next (litId : ContainerId) (b : Buffer) : Cursor → Outcome × Cursor
  | .iterator it =>
    ((ecmaOpContainerIteratorNext litId b it).1, .iterator (ecmaOpContainerIteratorNext litId b it).2)
  | .loop none => (.done, .loop none)
  | .loop (some i) =>
    ((foreachLoop litId b (indicesFrom litId b i)).1, .loop (foreachLoop litId b (indicesFrom litId b i)).2)

/-- The callback of a loop raised an error. -/
def Cursor.raise : Cursor → Cursor
  | .iterator it => .iterator it
  | .loop _ => .loop none

/-- What can happen to one container: its routines, a new iterator, a new `forEach` loop, a `next` call or
the next round of a loop, and an error from a callback. -/
inductive Act where
  | set (key value : Language)
  | delete (key : Language)
  | clear
  | iterator (kind : IteratorKind)
  | forEach
  | next (n : Nat)
  | raise (n : Nat)

structure System where
  buffer : Buffer
  cursors : List Cursor

def System.new : System := ⟨ecmaOpCreateInternalBuffer, []⟩

def System.act (litId : ContainerId) (s : System) : Act → Option Outcome × System
  | .set key value => (none, { s with buffer := (ecmaOpContainerSet s.buffer key value litId).2 })
  | .delete key => (none, { s with buffer := (ecmaOpContainerDelete s.buffer key litId).2 })
  | .clear => (none, { s with buffer := (ecmaOpContainerClear s.buffer litId).2 })
  | .iterator kind => (none, { s with cursors := s.cursors ++ [.iterator (ecmaOpCreateIteratorObject kind)] })
  | .forEach => (none, { s with cursors := s.cursors ++ [.loop (some 0)] })
  | .next n =>
    match s.cursors[n]? with
    | none => (none, s)
    | some c => (some (c.next litId s.buffer).1, { s with cursors := s.cursors.set n (c.next litId s.buffer).2 })
  | .raise n =>
    match s.cursors[n]? with
    | none => (none, s)
    | some c => (none, { s with cursors := s.cursors.set n c.raise })

/-- The acts of a run, each with its outcome. -/
def trace (litId : ContainerId) (s : System) : List Act → List (Act × Option Outcome)
  | [] => []
  | a :: as => (a, (s.act litId a).1) :: trace litId (s.act litId a).2 as

/-! ## The law -/

/-- A live entry. The stamp counts the insertions before it, so it orders the entries and tells a deleted
entry from one that was added later under the same key. -/
structure Entry where
  stamp : Nat
  key : EcmaValue
  value : EcmaValue
deriving DecidableEq

/-- The container as its user knows it: the number of insertions so far and the live entries. Keys and
values are kept as `ecma_op_container_set` stores them. -/
structure History where
  born : Nat
  live : List Entry

namespace History

def new : History := ⟨0, []⟩

def set (litId : ContainerId) (h : History) (key value : EcmaValue) : History :=
  if ∃ e ∈ h.live, keyOf e.key = keyOf key then
    { h with live := h.live.map fun e => if keyOf e.key = keyOf key
        then { e with value := entryValue litId e.key (ecmaOpContainerSetNormalizeZero value) } else e }
  else
    ⟨h.born + 1, h.live ++ [⟨h.born, ecmaOpContainerSetNormalizeZero key,
      entryValue litId (ecmaOpContainerSetNormalizeZero key) value⟩]⟩

def delete (h : History) (key : EcmaValue) : History :=
  { h with live := h.live.filter fun e => keyOf e.key ≠ keyOf key }

def clear (h : History) : History := { h with live := [] }

end History

/-- What an iteration has handed out so far. A `forEach` loop has no kind. -/
structure Progress where
  kind : Option IteratorKind
  seen : List Nat
  done : Bool
deriving DecidableEq

namespace Progress

def new (kind : Option IteratorKind) : Progress := ⟨kind, [], false⟩

def item (p : Progress) (e : Entry) : Item := (p.kind.getD .entries).item e.key e.value

/-- `e` may be handed out: the iteration is not over, `e` is live and comes after everything that was handed
out, and no live entry before it is left out. -/
structure MayYield (h : History) (p : Progress) (e : Entry) : Prop where
  running : p.done = false
  live : e ∈ h.live
  after : ∀ s ∈ p.seen, s < e.stamp
  complete : ∀ f ∈ h.live, f.stamp < e.stamp → f.stamp ∈ p.seen

/-- Done may be reported: it was reported before, or every live entry was handed out. -/
def MayEnd (h : History) (p : Progress) : Prop := p.done = true ∨ ∀ e ∈ h.live, e.stamp ∈ p.seen

def yielded (p : Progress) (e : Entry) : Progress := { p with seen := e.stamp :: p.seen }

def ended (p : Progress) : Progress := { p with done := true }

/-- An error ends a loop, and does nothing to an iterator. -/
def raise (p : Progress) : Progress := if p.kind = none then p.ended else p

end Progress

/-- Every outcome of the trace is one that the history allows: a `next` yields an entry that may be handed
out, or reports done when it may. -/
def Lawful (litId : ContainerId) (h : History) (ps : List Progress) : List (Act × Option Outcome) → Prop
  | [] => True
  | (.set key value, _) :: es => Lawful litId (h.set litId key value) ps es
  | (.delete key, _) :: es => Lawful litId (h.delete key) ps es
  | (.clear, _) :: es => Lawful litId h.clear ps es
  | (.iterator kind, _) :: es => Lawful litId h (ps ++ [.new (some kind)]) es
  | (.forEach, _) :: es => Lawful litId h (ps ++ [.new none]) es
  | (.next n, out) :: es =>
    match ps[n]?, out with
    | some p, some (.yield item) =>
      ∃ e, p.MayYield h e ∧ item = p.item e ∧ Lawful litId h (ps.set n (p.yielded e)) es
    | some p, some .done => p.MayEnd h ∧ Lawful litId h (ps.set n p.ended) es
    | none, none => Lawful litId h ps es
    | _, _ => False
  | (.raise n, _) :: es =>
    match ps[n]? with
    | some p => Lawful litId h (ps.set n p.raise) es
    | none => Lawful litId h ps es

/-! ## When the code keeps it -/

/-- The state before a `next` call of an iterator: what lies between `iterator_index` and an index that did
not fit is deleted, and if done was reported already, so is everything from `iterator_index` on. -/
def UpToDate (b : Buffer) (reported : Bool) : Cursor → Prop
  | .iterator it => it.iterated = true →
      (∀ q, it.nextIndex = some q → ∀ i, it.iteratorIndex ≤ i → i < q → b.items.getD i .empty = .empty) ∧
      (reported = true → ∀ i, it.iteratorIndex ≤ i → b.items.getD i .empty = .empty)
  | .loop _ => True

/-- Every `next` call of the run is made in such a state; `reported` has the iterations that reported done. -/
def RunUpToDate (litId : ContainerId) (s : System) (reported : List Nat) : List Act → Prop
  | [] => True
  | .next n :: as =>
    (∀ c, s.cursors[n]? = some c → UpToDate s.buffer (reported.contains n) c) ∧
      RunUpToDate litId (s.act litId (.next n)).2
        (if (s.act litId (.next n)).1 = some .done then n :: reported else reported) as
  | a :: as => RunUpToDate litId (s.act litId a).2 reported as

/-! ## Cells and entries -/

/-- The entries of the cells, numbered from `n` on. -/
def stamped (litId : ContainerId) : Nat → List Cell → List Entry
  | _, [] => []
  | n, none :: cs => stamped litId (n + 1) cs
  | n, some (k, v) :: cs => ⟨n, k, entryValue litId k v⟩ :: stamped litId (n + 1) cs

/-- The cell with this number has an entry. -/
def Live (cells : List Cell) (i : Nat) : Prop := ∃ e, cells[i]? = some (some e)

theorem stamped_append (litId : ContainerId) (cs ds : List Cell) :
    ∀ (n : Nat), stamped litId n (cs ++ ds) = stamped litId n cs ++ stamped litId (n + cs.length) ds := by
  induction cs with
  | nil => intro n; rfl
  | cons c cs ih =>
    intro n
    have hlen : n + 1 + cs.length = n + (c :: cs).length := by rw [List.length_cons]; omega
    cases c with
    | none => rw [List.cons_append, stamped, stamped, ih, hlen]
    | some e => rw [List.cons_append, stamped, stamped, ih, hlen, List.cons_append]

theorem mem_stamped {litId : ContainerId} {e : Entry} {cells : List Cell} :
    ∀ {n : Nat}, e ∈ stamped litId n cells ↔
      ∃ i k v, cells[i]? = some (some (k, v)) ∧ e = ⟨n + i, k, entryValue litId k v⟩ := by
  induction cells with
  | nil => intro n; simp [stamped]
  | cons c cs ih =>
    intro n
    have hrest : e ∈ stamped litId (n + 1) cs ↔
        ∃ i k v, (c :: cs)[i + 1]? = some (some (k, v)) ∧ e = ⟨n + (i + 1), k, entryValue litId k v⟩ := by
      rw [ih]
      simp only [List.getElem?_cons_succ, Nat.add_assoc, Nat.add_comm 1]
    constructor
    · intro h
      cases c with
      | none =>
        obtain ⟨i, k, v, hi, he⟩ := hrest.mp h
        exact ⟨i + 1, k, v, hi, he⟩
      | some kv =>
        rw [stamped, List.mem_cons] at h
        cases h with
        | inl he => exact ⟨0, kv.1, kv.2, rfl, he⟩
        | inr h =>
          obtain ⟨i, k, v, hi, he⟩ := hrest.mp h
          exact ⟨i + 1, k, v, hi, he⟩
    · intro h
      obtain ⟨i, k, v, hi, he⟩ := h
      cases i with
      | zero =>
        rw [List.getElem?_cons_zero, Option.some_inj] at hi
        rw [hi, stamped, he]
        exact List.mem_cons_self
      | succ i =>
        have hmem := hrest.mpr ⟨i, k, v, hi, he⟩
        cases c with
        | none => exact hmem
        | some kv => exact List.mem_cons_of_mem _ hmem

/-- The entries of a buffer with the keys of `cells`. -/
theorem map_key_stamped (litId : ContainerId) (cells : List Cell) :
    ∀ (n : Nat), (stamped litId n cells).map (fun e => keyOf e.key) =
      cells.reduceOption.map fun e => keyOf e.1 := by
  induction cells with
  | nil => intro n; rfl
  | cons c cs ih =>
    intro n
    cases c with
    | none => rw [stamped, ih, List.reduceOption_cons_of_none]
    | some e => rw [stamped, List.map_cons, ih, List.reduceOption_cons_of_some, List.map_cons]

theorem live_lt {cells : List Cell} {i : Nat} (h : Live cells i) : i < cells.length := by
  obtain ⟨e, he⟩ := h
  exact (List.getElem?_eq_some_iff.mp he).1

/-- An element of the buffer, in the cell it belongs to. -/
theorem getD_encode_cell (litId : ContainerId) (cells : List Cell) :
    ∀ (i : Nat), (encode litId cells).getD i .empty =
      match cells[i / ecmaOpContainerEntrySize litId]? with
      | some c => (encodeCell litId c).getD (i % ecmaOpContainerEntrySize litId) .empty
      | none => .empty := by
  have hpos := entrySize_pos litId
  induction cells with
  | nil => intro i; simp [encode]
  | cons c cs ih =>
    intro i
    have hlen := length_encodeCell litId c
    rw [encode_cons]
    by_cases hi : i < ecmaOpContainerEntrySize litId
    · rw [List.getD_eq_getElem?_getD, List.getElem?_append_left (by omega), Nat.div_eq_of_lt hi,
        Nat.mod_eq_of_lt hi, ← List.getD_eq_getElem?_getD]
      rfl
    · obtain ⟨j, rfl⟩ : ∃ j, i = j + ecmaOpContainerEntrySize litId := ⟨i - ecmaOpContainerEntrySize litId, by omega⟩
      rw [List.getD_eq_getElem?_getD, List.getElem?_append_right (by omega), hlen, Nat.add_sub_cancel,
        ← List.getD_eq_getElem?_getD, ih, Nat.add_div_right _ hpos, Nat.add_mod_right, List.getElem?_cons_succ]

/-! ## The state of a container -/

/-- The buffer holds the cells, and the history their entries. -/
structure Holds (litId : ContainerId) (b : Buffer) (h : History) (cells : List Cell) : Prop where
  items : b.items = encode litId cells
  live : h.live = stamped litId 0 cells
  born : h.born = cells.length
  keys : ∀ e ∈ cells.reduceOption, e.1 ≠ .empty
  nodup : (cells.reduceOption.map fun e => keyOf e.1).Nodup

/-- Cells only gain entries at their end. -/
def Grows (cells cells' : List Cell) : Prop :=
  cells.length ≤ cells'.length ∧ ∀ i < cells.length, Live cells' i → Live cells i

theorem Grows.refl (cells : List Cell) : Grows cells cells := ⟨Nat.le_refl _, fun _ _ h => h⟩

/-- The entry of one cell is replaced or removed. -/
theorem grows_replace (l r : List Cell) (e : EcmaValue × EcmaValue) (c : Cell) :
    Grows (l ++ some e :: r) (l ++ c :: r) := by
  refine ⟨by simp, ?_⟩
  intro i _ h
  obtain ⟨f, hf⟩ := h
  by_cases hi : i = l.length
  · subst hi
    exact ⟨e, by simp⟩
  · refine ⟨f, ?_⟩
    rw [← hf, List.getElem?_append, List.getElem?_append]
    split
    · rfl
    · obtain ⟨j, hj⟩ : ∃ j, i - l.length = j + 1 := ⟨i - l.length - 1, by omega⟩
      rw [hj, List.getElem?_cons_succ, List.getElem?_cons_succ]

theorem mem_reduceOption {cells : List Cell} {i : Nat} {e : EcmaValue × EcmaValue} (h : cells[i]? = some (some e)) :
    e ∈ cells.reduceOption := List.reduceOption_mem_iff.mpr (List.mem_of_getElem? h)

section Mutation

variable {litId : ContainerId} {b : Buffer} {h : History} {cells l r : List Cell} {key value : EcmaValue}

/-- The search of a key: no live entry has it, or just one. -/
theorem Holds.find (hh : Holds litId b h cells) (hkey : key ≠ .empty) :
    (ecmaOpInternalBufferFind b key litId = none ∧ ∀ e ∈ h.live, keyOf e.key ≠ keyOf key) ∨
    ∃ l k v r, ecmaOpInternalBufferFind b key litId = some (encode litId l).length ∧
      cells = l ++ some (k, v) :: r ∧ keyOf k = keyOf key ∧
      (∀ e ∈ stamped litId 0 l, keyOf e.key ≠ keyOf key) ∧
      ∀ e ∈ stamped litId (l.length + 1) r, keyOf e.key ≠ keyOf key := by
  have hfind := find_encode hh.items hkey
  split at hfind
  · rename_i hf
    refine .inl ⟨hf, ?_⟩
    intro e he
    rw [hh.live] at he
    obtain ⟨i, k, v, hi, rfl⟩ := mem_stamped.mp he
    exact hfind (k, v) (mem_reduceOption hi)
  · rename_i entry hf
    obtain ⟨l, k, v, r, hcells, rfl, hk⟩ := hfind
    have hnodup := hh.nodup
    rw [hcells, List.reduceOption_append, List.reduceOption_cons_of_some, List.map_append, List.map_cons,
      List.nodup_append] at hnodup
    obtain ⟨-, hr, hlr⟩ := hnodup
    refine .inr ⟨l, k, v, r, hf, hcells, hk, ?_, ?_⟩
    · intro e he hek
      have hmem := List.mem_map_of_mem (f := fun e : Entry => keyOf e.key) he
      rw [map_key_stamped] at hmem
      exact hlr _ hmem (keyOf k) List.mem_cons_self (hek.trans hk.symm)
    · intro e he hek
      have hmem := List.mem_map_of_mem (f := fun e : Entry => keyOf e.key) he
      rw [map_key_stamped] at hmem
      refine (List.nodup_cons.mp hr).1 ?_
      rw [hk, ← hek]
      exact hmem

theorem stamped_split (litId : ContainerId) (l r : List Cell) (k v : EcmaValue) :
    stamped litId 0 (l ++ some (k, v) :: r) =
      stamped litId 0 l ++ ⟨l.length, k, entryValue litId k v⟩ :: stamped litId (l.length + 1) r := by
  rw [stamped_append, Nat.zero_add, stamped]

/-- A new key goes to the end. -/
theorem Holds.append (hh : Holds litId b h cells) (hkey : key ≠ .empty)
    (hnone : ∀ e ∈ h.live, keyOf e.key ≠ keyOf key) :
    Holds litId (ecmaOpInternalBufferAppend b (ecmaOpContainerSetNormalizeZero key) value litId)
      (h.set litId key value) (cells ++ [some (ecmaOpContainerSetNormalizeZero key, value)]) := by
  have habsent : ¬ ∃ e ∈ h.live, keyOf e.key = keyOf key := by
    intro hex
    obtain ⟨e, he, hek⟩ := hex
    exact hnone e he hek
  have hnorm : keyOf (ecmaOpContainerSetNormalizeZero key) = keyOf key := by
    rw [keyOf, normalizeZero_idem, keyOf]
  have hreduce : (cells ++ [some (ecmaOpContainerSetNormalizeZero key, value)]).reduceOption =
      cells.reduceOption ++ [(ecmaOpContainerSetNormalizeZero key, value)] := by
    rw [List.reduceOption_append]
    rfl
  refine ⟨?_, ?_, ?_, ?_, ?_⟩
  · simp [ecmaOpInternalBufferAppend, hh.items, encode, encodeCell]
  · rw [History.set, if_neg habsent, stamped_append, ← hh.live, hh.born, Nat.zero_add]
    rfl
  · rw [History.set, if_neg habsent, List.length_append, hh.born]
    rfl
  · intro e he
    rw [hreduce, List.mem_append, List.mem_singleton] at he
    cases he with
    | inl he => exact hh.keys e he
    | inr he =>
      rw [he]
      intro hempty
      have hkeyOf : keyOf (ecmaOpContainerSetNormalizeZero key) = .empty := keyOf_empty_iff.mpr hempty
      exact hkey (keyOf_empty_iff.mp (hnorm.symm.trans hkeyOf))
  · rw [hreduce, List.map_append, List.nodup_append]
    refine ⟨hh.nodup, List.nodup_singleton _, ?_⟩
    intro x hx y hy
    rw [← map_key_stamped litId cells 0, ← hh.live] at hx
    obtain ⟨e, he, rfl⟩ := List.mem_map.mp hx
    rw [List.map_cons, List.map_nil, List.mem_singleton] at hy
    rw [hy, hnorm]
    exact hnone e he

theorem map_set_of_ne {es : List Entry} (f : Entry → Entry) (hne : ∀ e ∈ es, keyOf e.key ≠ keyOf key) :
    (es.map fun e => if keyOf e.key = keyOf key then f e else e) = es := by
  refine (List.map_congr_left fun e he => ?_).trans (List.map_id es)
  rw [if_neg (hne e he)]
  rfl

/-- A key that is set again keeps its entry. -/
theorem Holds.update {k v : EcmaValue} (hh : Holds litId b h (l ++ some (k, v) :: r)) (value : EcmaValue)
    (hk : keyOf k = keyOf key) (hl : ∀ e ∈ stamped litId 0 l, keyOf e.key ≠ keyOf key)
    (hr : ∀ e ∈ stamped litId (l.length + 1) r, keyOf e.key ≠ keyOf key) :
    ∃ w, Holds litId (ecmaOpInternalBufferUpdate b (encode litId l).length
        (ecmaOpContainerSetNormalizeZero value) litId) (h.set litId key value) (l ++ some (k, w) :: r) := by
  have hlive : h.live = stamped litId 0 l ++ ⟨l.length, k, entryValue litId k v⟩ ::
      stamped litId (l.length + 1) r := by rw [hh.live, stamped_split]
  have hpresent : ∃ e ∈ h.live, keyOf e.key = keyOf key := by
    refine ⟨⟨l.length, k, entryValue litId k v⟩, ?_, hk⟩
    rw [hlive]
    exact List.mem_append_right _ List.mem_cons_self
  have hset : (h.set litId key value).live = stamped litId 0 l ++
      ⟨l.length, k, entryValue litId k (ecmaOpContainerSetNormalizeZero value)⟩ ::
        stamped litId (l.length + 1) r := by
    rw [History.set, if_pos hpresent]
    simp only [hlive, List.map_append, List.map_cons]
    rw [map_set_of_ne _ hl, map_set_of_ne _ hr, if_pos hk]
  have hborn : (h.set litId key value).born = h.born := by rw [History.set, if_pos hpresent]
  have hkeys : ∀ w, (l ++ some (k, w) :: r).reduceOption.map Prod.fst =
      (l ++ some (k, v) :: r).reduceOption.map Prod.fst := by
    intro w
    simp only [List.reduceOption_append, List.reduceOption_cons_of_some, List.map_append, List.map_cons]
  refine ⟨if litId.isMap then ecmaOpContainerSetNormalizeZero value else v, ?_, ?_, ?_, ?_, ?_⟩
  · cases hm : litId.isMap with
    | true => exact update_cells hm hh.items
    | false =>
      simp only [ecmaOpInternalBufferUpdate, hm, Bool.false_eq_true, if_false]
      exact hh.items
  · rw [hset, stamped_split]
    unfold entryValue
    cases litId.isMap <;> rfl
  · rw [hborn, hh.born]
    simp
  · intro e he
    have hmem := List.mem_map_of_mem (f := Prod.fst) he
    rw [hkeys] at hmem
    obtain ⟨f, hf, hfe⟩ := List.mem_map.mp hmem
    rw [← hfe]
    exact hh.keys f hf
  · have hcomp : ∀ cs : List Cell, (cs.reduceOption.map fun e => keyOf e.1) =
        (cs.reduceOption.map Prod.fst).map keyOf := by
      intro cs
      rw [List.map_map]
      rfl
    rw [hcomp, hkeys, ← hcomp]
    exact hh.nodup

/-- A deleted entry leaves a tombstone. -/
theorem Holds.erase {k v : EcmaValue} (hh : Holds litId b h (l ++ some (k, v) :: r))
    (hk : keyOf k = keyOf key) (hl : ∀ e ∈ stamped litId 0 l, keyOf e.key ≠ keyOf key)
    (hr : ∀ e ∈ stamped litId (l.length + 1) r, keyOf e.key ≠ keyOf key) :
    Holds litId (ecmaOpInternalBufferDelete b (encode litId l).length litId) (h.delete key) (l ++ none :: r) := by
  have hsub : (l ++ none :: r).reduceOption.Sublist (l ++ some (k, v) :: r).reduceOption := by
    rw [List.reduceOption_append, List.reduceOption_append, List.reduceOption_cons_of_none,
      List.reduceOption_cons_of_some]
    exact List.Sublist.append_left (List.sublist_cons_self _ _) _
  refine ⟨?_, ?_, ?_, ?_, ?_⟩
  · rw [ecmaOpInternalBufferDelete, hh.items, encode_append, encode_cons, emptyEntry_encode, encode_append,
      encode_cons]
  · simp only [History.delete, hh.live, stamped_split, List.filter_append]
    rw [List.filter_cons_of_neg (by simp [hk]), List.filter_eq_self.mpr (by simpa using hl),
      List.filter_eq_self.mpr (by simpa using hr), stamped_append, Nat.zero_add, stamped]
  · rw [History.delete, hh.born]
    simp
  · intro e he
    exact hh.keys e (hsub.subset he)
  · exact hh.nodup.sublist (hsub.map _)

theorem holds_clear (hh : Holds litId b h cells) :
    Holds litId (ecmaOpContainerClear b litId).2 h.clear (cells.map fun _ => none) := by
  have hfree := free_range litId cells [] (cellKey_empty hh.keys)
  have hnone : (cells.map fun _ => (none : Cell)).reduceOption = [] := by simp [List.reduceOption]
  simp only [List.length_nil, List.nil_append] at hfree
  refine ⟨?_, ?_, ?_, ?_, ?_⟩
  · simp only [ecmaOpContainerClear, ecmaOpContainerFreeEntries]
    rw [entryIndices_encode hh.items, hh.items, hfree]
  · have hempty : ∀ (cs : List Cell) (n : Nat), stamped litId n (cs.map fun _ => none) = [] := by
      intro cs
      induction cs with
      | nil => intro n; rfl
      | cons c cs ih => intro n; exact ih (n + 1)
    rw [hempty]
    rfl
  · rw [History.clear, hh.born, List.length_map]
  · intro e he
    rw [hnone] at he
    cases he
  · rw [hnone]
    exact List.nodup_nil

/-- `set`, `delete` and `clear` keep the numbering of the entries. -/
theorem holds_set (hh : Holds litId b h cells) (hw : litId.isWeak = false) (key value : Language) :
    ∃ cells', Holds litId (ecmaOpContainerSet b key value litId).2 (h.set litId key value) cells' ∧
      Grows cells cells' := by
  rcases hh.find key.2 with ⟨hf, hnone⟩ | ⟨l, k, v, r, hf, rfl, hk, hl, hr⟩
  · rw [set_none hw hf]
    refine ⟨_, hh.append key.2 hnone, by simp, ?_⟩
    intro i hi hlive
    obtain ⟨e, he⟩ := hlive
    exact ⟨e, by rwa [List.getElem?_append_left hi] at he⟩
  · rw [set_some hw hf]
    obtain ⟨w, hhold⟩ := hh.update value hk hl hr
    exact ⟨_, hhold, grows_replace l r (k, v) (some (k, w))⟩

theorem holds_delete (hh : Holds litId b h cells) (key : Language) :
    ∃ cells', Holds litId (ecmaOpContainerDelete b key litId).2 (h.delete key) cells' ∧ Grows cells cells' := by
  rcases hh.find key.2 with ⟨hf, hnone⟩ | ⟨l, k, v, r, hf, rfl, hk, hl, hr⟩
  · simp only [ecmaOpContainerDelete, hf]
    have hsame : (h.delete key).live = h.live := List.filter_eq_self.mpr (by simpa using hnone)
    exact ⟨cells, ⟨hh.items, hsame.trans hh.live, hh.born, hh.keys, hh.nodup⟩, Grows.refl cells⟩
  · simp only [ecmaOpContainerDelete, hf]
    exact ⟨_, hh.erase hk hl hr, grows_replace l r (k, v) none⟩

theorem grows_clear (cells : List Cell) : Grows cells (cells.map fun _ => none) := by
  refine ⟨by simp, ?_⟩
  intro i _ h
  obtain ⟨e, he⟩ := h
  rw [List.getElem?_map, Option.map_eq_some_iff] at he
  obtain ⟨c, -, hc⟩ := he
  cases hc

end Mutation

/-! ## The loops -/

/-- The element is a key, not a tombstone. -/
def isKey (b : Buffer) (i : Nat) : Bool := b.items.getD i .empty ≠ .empty

theorem foreachLoop_eq (litId : ContainerId) (b : Buffer) (is : List Nat) :
    foreachLoop litId b is = match is.find? (isKey b) with
      | none => (.done, none)
      | some i => (.yield (.pair (b.items.getD i .empty) (ecmaOpContainerGetValue b i litId)),
          some (i + ecmaOpContainerEntrySize litId)) := by
  induction is with
  | nil => rfl
  | cons i is ih =>
    rw [foreachLoop, List.find?_cons]
    by_cases hi : b.items.getD i .empty = .empty
    · have hkey : isKey b i = false := by simp only [isKey, hi, ne_eq, not_true_eq_false, decide_false]
      rw [if_pos hi, hkey, ih]
    · have hkey : isKey b i = true := by simpa [isKey] using hi
      rw [if_neg hi, hkey]

/-- The test for the last entry is met at the end of the loop only. -/
theorem nextLoop_eq (litId : ContainerId) (b : Buffer) (it : IteratorObject) (n : Nat) :
    ∀ (index : Nat), index + n * ecmaOpContainerEntrySize litId = b.items.length →
      nextLoop litId b it (List.range' index n (ecmaOpContainerEntrySize litId)) =
        match (List.range' index n (ecmaOpContainerEntrySize litId)).find? (isKey b) with
        | none => (if n = 0 then .undefined else .done, it)
        | some i => (.yield (it.kind.item (b.items.getD i .empty) (ecmaOpContainerGetValue b i litId)),
            ecmaOpIteratorSetIndex it (i + ecmaOpContainerEntrySize litId)) := by
  have hpos := entrySize_pos litId
  induction n with
  | zero => intro index _; rfl
  | succ n ih =>
    intro index hlen
    rw [Nat.succ_mul] at hlen
    rw [List.range'_succ, nextLoop, List.find?_cons]
    by_cases hi : b.items.getD index .empty = .empty
    · have hkey : isKey b index = false := by simp only [isKey, hi, ne_eq, not_true_eq_false, decide_false]
      rw [if_pos hi, hkey]
      cases n with
      | zero =>
        rw [if_pos (by omega)]
        rfl
      | succ n =>
        have hlast : index ≠ b.items.length - ecmaOpContainerEntrySize litId := by
          rw [Nat.succ_mul] at hlen
          omega
        rw [if_neg hlast, ih _ (by omega)]
        rfl
    · have hkey : isKey b index = true := by simpa [isKey] using hi
      rw [if_neg hi, hkey]

section Loops

variable {litId : ContainerId} {b : Buffer} {h : History} {cells : List Cell}

theorem Holds.length (hh : Holds litId b h cells) : b.items.length = cells.length * ecmaOpContainerEntrySize litId := by
  rw [hh.items, length_encode]

theorem Holds.indicesFrom (hh : Holds litId b h cells) {r : Nat} (hr : r ≤ cells.length) :
    indicesFrom litId b (r * ecmaOpContainerEntrySize litId) =
      List.range' (r * ecmaOpContainerEntrySize litId) (cells.length - r) (ecmaOpContainerEntrySize litId) := by
  have hpos := entrySize_pos litId
  obtain ⟨d, hd⟩ : ∃ d, cells.length = r + d := ⟨cells.length - r, by omega⟩
  have hlen : b.items.length - r * ecmaOpContainerEntrySize litId = d * ecmaOpContainerEntrySize litId := by
    rw [hh.length, hd, Nat.add_mul]
    omega
  have hdiv : (d * ecmaOpContainerEntrySize litId + ecmaOpContainerEntrySize litId - 1) /
      ecmaOpContainerEntrySize litId = d := by
    rw [Nat.add_sub_assoc hpos, Nat.mul_comm, Nat.mul_add_div hpos, Nat.div_eq_of_lt (by omega), Nat.add_zero]
  have hsub : cells.length - r = d := by omega
  simp only [Container.indicesFrom, hlen, hdiv, hsub]

/-- The elements of the cell with a number. -/
theorem Holds.cell (hh : Holds litId b h cells) (i : Nat) :
    b.items.getD (i * ecmaOpContainerEntrySize litId) .empty =
      match cells[i]? with
      | some c => cellKey c
      | none => .empty := by
  have hpos := entrySize_pos litId
  rw [hh.items, getD_encode_cell, Nat.mul_div_cancel _ hpos, Nat.mul_mod_left]
  cases cells[i]? with
  | none => rfl
  | some c =>
    unfold encodeCell cellKey
    cases c <;> cases litId.isMap <;> rfl

theorem Holds.isKey_iff (hh : Holds litId b h cells) (i : Nat) :
    isKey b (i * ecmaOpContainerEntrySize litId) = true ↔ Live cells i := by
  simp only [isKey, ne_eq, decide_eq_true_eq, hh.cell, Live]
  cases hc : cells[i]? with
  | none => simp
  | some c =>
    cases c with
    | none => simp [cellKey]
    | some e => simpa [cellKey] using hh.keys e (mem_reduceOption hc)

theorem Holds.value (hh : Holds litId b h cells) {i : Nat} {k v : EcmaValue} (hi : cells[i]? = some (some (k, v))) :
    ecmaOpContainerGetValue b (i * ecmaOpContainerEntrySize litId) litId = entryValue litId k v := by
  unfold ecmaOpContainerGetValue entryValue
  cases hm : litId.isMap with
  | true =>
    have hsize : ecmaOpContainerEntrySize litId = 2 := by rw [ecmaOpContainerEntrySize, hm]; rfl
    have hdiv : (i * 2 + 1) / 2 = i := by omega
    have hmod : (i * 2 + 1) % 2 = 1 := by omega
    rw [if_pos rfl, hh.items, getD_encode_cell, hsize, hdiv, hmod, hi]
    simp [encodeCell, hm]
  | false =>
    rw [if_neg (by simp), if_neg (by simp), hh.cell, hi]
    rfl

/-- What the loops find from a cell on: the first live one, or none. -/
theorem Holds.find_live (hh : Holds litId b h cells) (n : Nat) :
    ∀ (r : Nat), match (List.range' (r * ecmaOpContainerEntrySize litId) n (ecmaOpContainerEntrySize litId)).find?
        (isKey b) with
      | none => ∀ i, r ≤ i → i < r + n → ¬ Live cells i
      | some j => ∃ c, j = c * ecmaOpContainerEntrySize litId ∧ r ≤ c ∧ Live cells c ∧
          ∀ i, r ≤ i → i < c → ¬ Live cells i := by
  induction n with
  | zero => intro r i _ _; omega
  | succ n ih =>
    intro r
    have hrest := ih (r + 1)
    rw [Nat.succ_mul] at hrest
    rw [List.range'_succ, List.find?_cons]
    cases hkey : isKey b (r * ecmaOpContainerEntrySize litId) with
    | true => exact ⟨r, rfl, Nat.le_refl r, (hh.isKey_iff r).mp hkey, fun i _ _ => by omega⟩
    | false =>
      have hdead : ¬ Live cells r := by
        intro hlive
        rw [(hh.isKey_iff r).mpr hlive] at hkey
        cases hkey
      simp only
      split at hrest
      · intro i hi hlt
        by_cases hir : i = r
        · rw [hir]; exact hdead
        · exact hrest i (by omega) (by omega)
      · obtain ⟨c, hj, hc, hlive, hfirst⟩ := hrest
        refine ⟨c, hj, by omega, hlive, ?_⟩
        intro i hi hlt
        by_cases hir : i = r
        · rw [hir]; exact hdead
        · exact hfirst i (by omega) hlt

end Loops

/-! ## The state of an iteration -/

/-- The iteration stands before cell `r`: everything live before it was handed out, and nothing else. -/
structure Position (cells : List Cell) (p : Progress) (r : Nat) : Prop where
  bound : r ≤ cells.length
  before : ∀ s ∈ p.seen, s < r
  complete : ∀ i < r, Live cells i → i ∈ p.seen

/-- The fields of an iterator that stands before cell `r`: `iterator_index` may be left at an earlier cell, and
then the property has the index of `r`. -/
structure IndexAt (litId : ContainerId) (it : IteratorObject) (r start : Nat) : Prop where
  le : start ≤ r
  index : it.iteratorIndex = start * ecmaOpContainerEntrySize litId
  limit : it.iteratorIndex < ecmaIteratorIndexLimit
  next : match it.nextIndex with
    | none => start = r
    | some q => q = r * ecmaOpContainerEntrySize litId ∧ ecmaIteratorIndexLimit ≤ q

def CursorAt (litId : ContainerId) (cells : List Cell) (p : Progress) : Cursor → Prop
  | .iterator it => p.kind = some it.kind ∧ (it.iterated = false → p.done = true) ∧
      ∃ r, Position cells p r ∧ ∃ start, IndexAt litId it r start
  | .loop none => p.kind = none ∧ p.done = true
  | .loop (some i) => p.kind = none ∧ p.done = false ∧
      ∃ r, Position cells p r ∧ i = r * ecmaOpContainerEntrySize litId

theorem Position.grows {cells cells' : List Cell} {p : Progress} {r : Nat} (h : Position cells p r)
    (hg : Grows cells cells') : Position cells' p r := by
  have hbound := h.bound
  refine ⟨Nat.le_trans h.bound hg.1, h.before, ?_⟩
  intro i hi hlive
  exact h.complete i hi (hg.2 i (by omega) hlive)

theorem CursorAt.grows {litId : ContainerId} {cells cells' : List Cell} {p : Progress} {c : Cursor}
    (h : CursorAt litId cells p c) (hg : Grows cells cells') : CursorAt litId cells' p c := by
  cases c with
  | iterator it =>
    obtain ⟨hkind, hdone, r, hr, hat⟩ := h
    exact ⟨hkind, hdone, r, hr.grows hg, hat⟩
  | loop i =>
    cases i with
    | none => exact h
    | some i =>
      obtain ⟨hkind, hrun, r, hr, hi⟩ := h
      exact ⟨hkind, hrun, r, hr.grows hg, hi⟩

theorem position_zero (cells : List Cell) (kind : Option IteratorKind) : Position cells (.new kind) 0 := by
  refine ⟨Nat.zero_le _, ?_, ?_⟩
  · intro s hs; cases hs
  · intro i hi; omega

section Next

variable {litId : ContainerId} {b : Buffer} {h : History} {cells : List Cell} {p : Progress} {r c : Nat}

/-- Handing out the first live cell. -/
theorem Position.yield (hp : Position cells p r) (hh : Holds litId b h cells) {k v : EcmaValue}
    (hc : cells[c]? = some (some (k, v))) (hrc : r ≤ c) (hfirst : ∀ i, r ≤ i → i < c → ¬ Live cells i)
    (hrun : p.done = false) :
    p.MayYield h ⟨c, k, entryValue litId k v⟩ ∧
      Position cells (p.yielded ⟨c, k, entryValue litId k v⟩) (c + 1) := by
  have hseen : ∀ i < c, Live cells i → i ∈ p.seen := by
    intro i hi hlive
    by_cases hir : i < r
    · exact hp.complete i hir hlive
    · exact absurd hlive (hfirst i (by omega) hi)
  have hbound := live_lt ⟨(k, v), hc⟩
  constructor
  · refine ⟨hrun, ?_, ?_, ?_⟩
    · rw [hh.live]
      exact mem_stamped.mpr ⟨c, k, v, hc, by rw [Nat.zero_add]⟩
    · intro s hs
      exact Nat.lt_of_lt_of_le (hp.before s hs) hrc
    · intro f hf hlt
      rw [hh.live] at hf
      obtain ⟨i, k', v', hi, rfl⟩ := mem_stamped.mp hf
      rw [Nat.zero_add] at hlt ⊢
      exact hseen i hlt ⟨_, hi⟩
  · refine ⟨hbound, ?_, ?_⟩
    · intro s hs
      rw [Progress.yielded, List.mem_cons] at hs
      cases hs with
      | inl hs => rw [hs]; exact Nat.lt_succ_self c
      | inr hs =>
        have := hp.before s hs
        omega
    · intro i hi hlive
      rw [Progress.yielded, List.mem_cons]
      by_cases hic : i = c
      · exact .inl hic
      · exact .inr (hseen i (by omega) hlive)

/-- Nothing live is left. -/
theorem Position.mayEnd (hp : Position cells p r) (hh : Holds litId b h cells) (hnone : ∀ i, r ≤ i → ¬ Live cells i) :
    p.MayEnd h := by
  refine .inr ?_
  intro e he
  rw [hh.live] at he
  obtain ⟨i, k, v, hi, rfl⟩ := mem_stamped.mp he
  rw [Nat.zero_add]
  by_cases hir : i < r
  · exact hp.complete i hir ⟨_, hi⟩
  · exact absurd ⟨_, hi⟩ (hnone i (by omega))

/-- A lawful outcome of a call, with the cursor after it. -/
def Obeys (litId : ContainerId) (h : History) (cells : List Cell) (p : Progress) (out : Outcome × Cursor) : Prop :=
  (∃ e, out.1 = .yield (p.item e) ∧ p.MayYield h e ∧ CursorAt litId cells (p.yielded e) out.2) ∨
  (out.1 = .done ∧ p.MayEnd h ∧ CursorAt litId cells p.ended out.2)

theorem foreach_obeys (hh : Holds litId b h cells) {i : Option Nat} (hc : CursorAt litId cells p (.loop i)) :
    Obeys litId h cells p ((Cursor.loop i).next litId b) := by
  cases i with
  | none => exact .inr ⟨rfl, .inl hc.2, hc.1, rfl⟩
  | some i =>
    obtain ⟨hkind, hrun, r, hp, rfl⟩ := hc
    have hfind := hh.find_live (cells.length - r) r
    have hbound := hp.bound
    simp only [Obeys, Cursor.next, hh.indicesFrom hp.bound, foreachLoop_eq]
    split at hfind
    · rename_i hf
      refine .inr ⟨rfl, hp.mayEnd hh ?_, hkind, rfl⟩
      intro i hi hlive
      have := live_lt hlive
      exact hfind i hi (by omega) hlive
    · rename_i j hf
      obtain ⟨c, rfl, hrc, hlive, hfirst⟩ := hfind
      obtain ⟨⟨k, v⟩, hcell⟩ := hlive
      obtain ⟨hmay, hpos⟩ := hp.yield hh hcell hrc hfirst hrun
      refine .inl ⟨⟨c, k, entryValue litId k v⟩, ?_, hmay, hkind, hrun, c + 1, hpos, by rw [Nat.succ_mul]⟩
      simp only [hh.cell, hcell, hh.value hcell, cellKey, Progress.item, hkind]
      rfl

/-- The iterator after `ecma_op_iterator_set_index`. -/
theorem IndexAt.setIndex {it : IteratorObject} {start : Nat} (hat : IndexAt litId it r start) (hrc : r ≤ c) :
    ∃ at', IndexAt litId (ecmaOpIteratorSetIndex it
      (c * ecmaOpContainerEntrySize litId + ecmaOpContainerEntrySize litId)) (c + 1) at' := by
  have hpos := entrySize_pos litId
  have hmul : c * ecmaOpContainerEntrySize litId + ecmaOpContainerEntrySize litId =
      (c + 1) * ecmaOpContainerEntrySize litId := (Nat.succ_mul _ _).symm
  have hle := hat.le
  rw [hmul, ecmaOpIteratorSetIndex]
  split
  · rename_i hlimit
    exact ⟨start, ⟨by omega, hat.index, hat.limit, ⟨rfl, hlimit⟩⟩⟩
  · rename_i hlimit
    refine ⟨c + 1, ⟨Nat.le_refl _, rfl, by simpa using hlimit, ?_⟩⟩
    have hnext := hat.next
    split
    · rfl
    · -- the property was set at an earlier cell, so the index of this one does not fit either
      rename_i q hq
      rw [hq] at hnext
      obtain ⟨rfl, hq'⟩ := hnext
      have hmono : r * ecmaOpContainerEntrySize litId ≤ (c + 1) * ecmaOpContainerEntrySize litId :=
        Nat.mul_le_mul_right _ (by omega)
      omega

/-- Before an up to date call no live cell is left behind. -/
theorem IndexAt.upToDate {it : IteratorObject} {start : Nat} (hat : IndexAt litId it r start)
    (hh : Holds litId b h cells) (hit : it.iterated = true) {reported : Bool}
    (hup : UpToDate b reported (.iterator it)) :
    (∀ i, start ≤ i → i < r → ¬ Live cells i) ∧ (reported = true → ∀ i, start ≤ i → ¬ Live cells i) := by
  have hpos := entrySize_pos litId
  obtain ⟨hbehind, hdone⟩ := hup hit
  have hkey : ∀ i, b.items.getD (i * ecmaOpContainerEntrySize litId) .empty = .empty → ¬ Live cells i := by
    intro i hempty hlive
    have hkey := (hh.isKey_iff i).mpr hlive
    simp only [isKey, hempty, ne_eq, not_true_eq_false, decide_false] at hkey
    cases hkey
  constructor
  · intro i hi hir
    have hnext := hat.next
    split at hnext
    · omega
    · rename_i q hq
      refine hkey i (hbehind q hq _ ?_ ?_)
      · rw [hat.index]
        exact Nat.mul_le_mul_right _ hi
      · rw [hnext.1]
        exact Nat.mul_lt_mul_of_pos_right hir hpos
  · intro hrep i hi
    refine hkey i (hdone hrep _ ?_)
    rw [hat.index]
    exact Nat.mul_le_mul_right _ hi

theorem iterator_obeys (hh : Holds litId b h cells) {it : IteratorObject}
    (hc : CursorAt litId cells p (.iterator it)) {reported : Bool} (hrep : p.done = true → reported = true)
    (hup : UpToDate b reported (.iterator it)) : Obeys litId h cells p ((Cursor.iterator it).next litId b) := by
  obtain ⟨hkind, hdone, r, hp, start, hat⟩ := hc
  have hpos := entrySize_pos litId
  have hbound := hp.bound
  have hle := hat.le
  have hindex : ecmaOpIteratorGetIndex it = start * ecmaOpContainerEntrySize litId := by
    have hlimit := hat.limit
    rw [ecmaOpIteratorGetIndex, if_neg (by omega), hat.index]
  simp only [Obeys, Cursor.next, ecmaOpContainerIteratorNext]
  cases hit : it.iterated with
  | false => exact .inr ⟨rfl, .inl (hdone hit), hkind, fun _ => rfl, r, ⟨hp.bound, hp.before, hp.complete⟩, start, hat⟩
  | true =>
    obtain ⟨hbehind, hafter⟩ := hat.upToDate hh hit hup
    rw [if_neg (by simp), hindex, hh.length]
    by_cases hend : start * ecmaOpContainerEntrySize litId = cells.length * ecmaOpContainerEntrySize litId
    · have hall : start = cells.length := Nat.eq_of_mul_eq_mul_right hpos hend
      rw [if_pos hend]
      refine .inr ⟨rfl, hp.mayEnd hh ?_, hkind, fun _ => rfl, r, ⟨hp.bound, hp.before, hp.complete⟩, start,
        ⟨hat.le, hat.index, hat.limit, hat.next⟩⟩
      intro i hi hlive
      have := live_lt hlive
      omega
    · have hlt : start < cells.length := by
        by_contra hge
        exact hend (by rw [Nat.le_antisymm (Nat.le_trans hle hbound) (Nat.not_lt.mp hge)])
      have hlen : start * ecmaOpContainerEntrySize litId + (cells.length - start) * ecmaOpContainerEntrySize litId =
          b.items.length := by
        rw [hh.length, ← Nat.add_mul, Nat.add_sub_cancel' (by omega)]
      have hfind := hh.find_live (cells.length - start) start
      rw [if_neg hend, hh.indicesFrom (by omega), nextLoop_eq litId b it _ _ hlen]
      split at hfind
      · rename_i hf
        rw [if_neg (by omega)]
        refine .inr ⟨rfl, hp.mayEnd hh ?_, hkind, fun _ => rfl, r, ⟨hp.bound, hp.before, hp.complete⟩, start, hat⟩
        intro i hi hlive
        have := live_lt hlive
        exact hfind i (by omega) (by omega) hlive
      · rename_i j hf
        obtain ⟨c, rfl, hac, hlive, hfirst⟩ := hfind
        have hrc : r ≤ c := by
          by_contra hcr
          exact hbehind c hac (by omega) hlive
        have hrun : p.done = false := by
          cases hd : p.done with
          | false => rfl
          | true => exact absurd hlive (hafter (hrep hd) c hac)
        obtain ⟨⟨k, v⟩, hcell⟩ := hlive
        obtain ⟨hmay, hposition⟩ := hp.yield hh hcell hrc (fun i hi hic => hfirst i (by omega) hic) hrun
        obtain ⟨at', hat'⟩ := hat.setIndex hrc
        refine .inl ⟨⟨c, k, entryValue litId k v⟩, ?_, hmay, ?_⟩
        · simp only [hh.cell, hcell, hh.value hcell, cellKey, Progress.item, hkind]
          rfl
        · have hkind' : (ecmaOpIteratorSetIndex it
              (c * ecmaOpContainerEntrySize litId + ecmaOpContainerEntrySize litId)).kind = it.kind := by
            rw [ecmaOpIteratorSetIndex]
            split <;> rfl
          have hiter : (ecmaOpIteratorSetIndex it
              (c * ecmaOpContainerEntrySize litId + ecmaOpContainerEntrySize litId)).iterated = true := by
            rw [ecmaOpIteratorSetIndex]
            split <;> exact hit
          refine ⟨hkind.trans (by rw [hkind']), ?_, c + 1, hposition, at', hat'⟩
          intro hfalse
          rw [hiter] at hfalse
          cases hfalse

end Next

/-! ## Whole runs -/

section Runs

variable {litId : ContainerId} {s : System} {reported : List Nat} {h : History} {ps : List Progress}
  {cells : List Cell}

/-- The cursors stand where their progress says, and the iterators that are done have reported it. -/
structure Tracked (litId : ContainerId) (s : System) (reported : List Nat) (h : History) (ps : List Progress)
    (cells : List Cell) : Prop where
  holds : Holds litId s.buffer h cells
  length : s.cursors.length = ps.length
  cursor : ∀ (n : Nat) (c : Cursor) (p : Progress), s.cursors[n]? = some c → ps[n]? = some p → CursorAt litId cells p c
  reported : ∀ (n : Nat) (p : Progress), ps[n]? = some p → p.kind ≠ none → p.done = true → n ∈ reported

theorem tracked_new (litId : ContainerId) : Tracked litId .new [] .new [] [] := by
  refine ⟨⟨rfl, rfl, rfl, ?_, List.nodup_nil⟩, rfl, ?_, ?_⟩
  · intro e he; cases he
  · intro n c p hc; cases hc
  · intro n p hp; cases hp

/-- A routine of the container changes the buffer only. -/
theorem Tracked.mutate (hi : Tracked litId s reported h ps cells) {b' : Buffer} {h' : History}
    (hm : ∃ cells', Holds litId b' h' cells' ∧ Grows cells cells') :
    ∃ cells', Tracked litId { s with buffer := b' } reported h' ps cells' := by
  obtain ⟨cells', hholds, hgrows⟩ := hm
  exact ⟨cells', hholds, hi.length, fun n c p hc hp => (hi.cursor n c p hc hp).grows hgrows, hi.reported⟩

theorem Tracked.add (hi : Tracked litId s reported h ps cells) {c : Cursor} {p : Progress} (hrun : p.done = false)
    (hc : CursorAt litId cells p c) :
    Tracked litId { s with cursors := s.cursors ++ [c] } reported h (ps ++ [p]) cells := by
  have hlen := hi.length
  refine ⟨hi.holds, by simp [hlen], ?_, ?_⟩
  · intro n c' p' hc' hp'
    by_cases hn : n < ps.length
    · rw [List.getElem?_append_left (by omega)] at hc' hp'
      exact hi.cursor n c' p' hc' hp'
    · rw [List.getElem?_append_right (by omega), List.getElem?_singleton] at hc' hp'
      split at hp'
      · split at hc'
        · cases hp'; cases hc'; exact hc
        · cases hc'
      · cases hp'
  · intro n p' hp' hk hd
    by_cases hn : n < ps.length
    · rw [List.getElem?_append_left hn] at hp'
      exact hi.reported n p' hp' hk hd
    · rw [List.getElem?_append_right (by omega), List.getElem?_singleton] at hp'
      split at hp'
      · cases hp'
        rw [hrun] at hd
        cases hd
      · cases hp'

/-- One cursor moves. -/
theorem Tracked.set (hi : Tracked litId s reported h ps cells) {n : Nat} {c : Cursor} {p : Progress} {reported' : List Nat}
    (hsub : ∀ m ∈ reported, m ∈ reported') (hc : CursorAt litId cells p c)
    (hrep : p.kind ≠ none → p.done = true → n ∈ reported') :
    Tracked litId { s with cursors := s.cursors.set n c } reported' h (ps.set n p) cells := by
  refine ⟨hi.holds, by simp [hi.length], ?_, ?_⟩
  · intro m c' p' hc' hp'
    rw [List.getElem?_set] at hc' hp'
    split at hc'
    · rename_i hnm
      rw [if_pos hnm] at hp'
      split at hc'
      · split at hp'
        · cases hc'; cases hp'; exact hc
        · cases hp'
      · cases hc'
    · rename_i hnm
      rw [if_neg hnm] at hp'
      exact hi.cursor m c' p' hc' hp'
  · intro m p' hp' hk hd
    rw [List.getElem?_set] at hp'
    split at hp'
    · rename_i hnm
      split at hp'
      · cases hp'
        rw [← hnm]
        exact hrep hk hd
      · cases hp'
    · exact hsub m (hi.reported m p' hp' hk hd)

theorem CursorAt.raise {p : Progress} {c : Cursor} (hc : CursorAt litId cells p c) :
    CursorAt litId cells p.raise c.raise := by
  cases c with
  | iterator it =>
    have hk : p.kind ≠ none := by rw [hc.1]; exact Option.some_ne_none _
    rw [Progress.raise, if_neg hk]
    exact hc
  | loop i =>
    have hk : p.kind = none := by
      cases i with
      | none => exact hc.1
      | some i => exact hc.1
    rw [Progress.raise, if_pos hk]
    exact ⟨hk, rfl⟩

/-- Every call of an up to date cursor obeys the law. -/
theorem Tracked.next (hi : Tracked litId s reported h ps cells) {n : Nat} {c : Cursor} {p : Progress}
    (hc : s.cursors[n]? = some c) (hp : ps[n]? = some p) (hup : UpToDate s.buffer (reported.contains n) c) :
    Obeys litId h cells p (c.next litId s.buffer) := by
  have hat := hi.cursor n c p hc hp
  cases c with
  | iterator it =>
    refine iterator_obeys hi.holds hat ?_ hup
    intro hd
    refine List.contains_iff_mem.mpr (hi.reported n p hp ?_ hd)
    rw [hat.1]
    exact Option.some_ne_none _
  | loop i => exact foreach_obeys hi.holds hat

theorem getElem?_of_length {n : Nat} (hlen : s.cursors.length = ps.length) :
    (s.cursors[n]? = none ∧ ps[n]? = none) ∨ ∃ c p, s.cursors[n]? = some c ∧ ps[n]? = some p := by
  by_cases hn : n < ps.length
  · exact .inr ⟨_, _, List.getElem?_eq_getElem (by omega), List.getElem?_eq_getElem hn⟩
  · exact .inl ⟨List.getElem?_eq_none (by omega), List.getElem?_eq_none (by omega)⟩

theorem lawful_of_upToDate (hw : litId.isWeak = false) (acts : List Act) :
    ∀ {s : System} {reported : List Nat} {h : History} {ps : List Progress} {cells : List Cell},
      Tracked litId s reported h ps cells → RunUpToDate litId s reported acts →
      Lawful litId h ps (trace litId s acts) := by
  induction acts with
  | nil => intro s reported h ps cells _ _; trivial
  | cons a acts ih =>
    intro s reported h ps cells hi hup
    cases a with
    | set key value =>
      obtain ⟨cells', hi'⟩ := hi.mutate (holds_set hi.holds hw key value)
      exact ih hi' hup
    | delete key =>
      obtain ⟨cells', hi'⟩ := hi.mutate (holds_delete hi.holds key)
      exact ih hi' hup
    | clear =>
      obtain ⟨cells', hi'⟩ := hi.mutate ⟨_, holds_clear hi.holds, grows_clear cells⟩
      exact ih hi' hup
    | iterator kind =>
      refine ih (hi.add rfl ?_) hup
      refine ⟨rfl, fun hf => (by cases hf), 0, position_zero cells _, 0, Nat.le_refl 0, ?_, ?_, rfl⟩
      · exact (Nat.zero_mul _).symm
      · exact Nat.zero_lt_succ _
    | forEach =>
      refine ih (hi.add rfl ?_) hup
      exact ⟨rfl, rfl, 0, position_zero cells _, (Nat.zero_mul _).symm⟩
    | next n =>
      obtain ⟨hstate, hrest⟩ := hup
      simp only [trace, Lawful]
      cases getElem?_of_length (n := n) hi.length with
      | inl hnone =>
        obtain ⟨hc, hp⟩ := hnone
        simp only [System.act, hc] at hrest ⊢
        simp only [hp]
        exact ih hi hrest
      | inr hsome =>
        obtain ⟨c, p, hc, hp⟩ := hsome
        have hobeys := hi.next hc hp (hstate c hc)
        simp only [System.act, hc] at hrest ⊢
        cases hobeys with
        | inl hyield =>
          obtain ⟨e, hout, hmay, hat⟩ := hyield
          simp only [hp, hout] at hrest ⊢
          refine ⟨e, hmay, rfl, ih (hi.set (fun m hm => hm) hat ?_) hrest⟩
          intro _ hd
          rw [Progress.yielded, hmay.running] at hd
          cases hd
        | inr hdone =>
          obtain ⟨hout, hmay, hat⟩ := hdone
          simp only [hp, hout] at hrest ⊢
          refine ⟨hmay, ih (hi.set (fun m hm => List.mem_cons_of_mem n hm) hat ?_) hrest⟩
          intro _ _
          exact List.mem_cons_self
    | raise n =>
      simp only [trace, Lawful]
      cases getElem?_of_length (n := n) hi.length with
      | inl hnone =>
        obtain ⟨hc, hp⟩ := hnone
        simp only [RunUpToDate, System.act, hc] at hup ⊢
        simp only [hp]
        exact ih hi hup
      | inr hsome =>
        obtain ⟨c, p, hc, hp⟩ := hsome
        simp only [RunUpToDate, System.act, hc] at hup ⊢
        simp only [hp]
        refine ih (hi.set (fun m hm => hm) (hi.cursor n c p hc hp).raise ?_) hup
        intro hk hd
        have hkind : p.kind ≠ none := by
          intro hnone
          exact hk (by rw [Progress.raise, if_pos hnone]; exact hnone)
        rw [Progress.raise, if_neg hkind] at hd
        exact hi.reported n p hp hkind hd

end Runs

/-- Iterators and `forEach` loops follow the law in every run of a Map or a Set whose calls are all made in
an up to date state. -/
theorem iteration_lawful_when (litId : ContainerId) (hw : litId.isWeak = false) (acts : List Act)
    (hup : RunUpToDate litId .new [] acts) : Lawful litId .new [] (trace litId .new acts) :=
  lawful_of_upToDate hw acts (tracked_new litId) hup

def yes : Language := ⟨.boolean true, by decide⟩

def no : Language := ⟨.boolean false, by decide⟩

/-- `true` is deleted and added again behind `false` before the iterator gets to it, and the loop is left. -/
def readdedRun : List Act :=
  [.set yes yes, .iterator .keys, .set no yes, .delete yes, .set yes no, .forEach, .next 0, .next 1, .next 0,
    .raise 1, .next 0, .next 1]

/-- Before an index does not fit and before done is reported, every state is up to date. -/
theorem upToDate_of_none {b : Buffer} {it : IteratorObject} (h : it.nextIndex = none) :
    UpToDate b false (.iterator it) := by
  intro _
  constructor
  · intro q hq
    rw [h] at hq
    cases hq
  · intro hr
    cases hr

theorem iteration_lawful_readded : Lawful .map .new [] (trace .map .new readdedRun) := by
  refine iteration_lawful_when .map rfl readdedRun ⟨?_, ?_, ?_, ?_, ?_, trivial⟩
  · intro c hc; cases hc; exact upToDate_of_none rfl
  · intro c hc; cases hc; trivial
  · intro c hc; cases hc; exact upToDate_of_none rfl
  · intro c hc; cases hc; exact upToDate_of_none rfl
  · intro c hc; cases hc; trivial

/-- `next` reports done over a tombstone, and then yields the element that is added after that. -/
def revivedRun : List Act := [.set yes yes, .iterator .keys, .delete yes, .next 0, .set no no, .next 0]

theorem iteration_not_lawful :
    (trace .set .new revivedRun).map Prod.snd =
      [none, none, none, some .done, none, some (.yield (.one (.boolean false)))] ∧
    ¬ Lawful .set .new [] (trace .set .new revivedRun) := by
  refine ⟨by decide +kernel, ?_⟩
  intro h
  obtain ⟨-, e, hmay, -⟩ := h
  have hrun := hmay.running
  cases hrun

end Container
end JJS
