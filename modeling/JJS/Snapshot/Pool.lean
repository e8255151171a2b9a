import JJS.Snapshot.Literal

/-!
# JJS.Snapshot.Pool

The collection of literals and the table that is written from it: `ecma_save_literals_append_value` and
`ecma_save_literals_for_snapshot`. The map from literals to offsets is searched without a bound in the code, so a
search that finds nothing is an operation that does not return.
-/

namespace JJS
namespace Snapshot

/-! ## Failures -/

/-- The errors of the snapshot functions. -/
inductive SnapshotError
  | maximumSnapshotSize
  | taggedTemplateLiterals
  | bufferTooSmall
  | literalsTooLarge
  | invalidSnapshot
  | notEnoughSnapshots
deriving DecidableEq

/-- Why there is no result: an error, or the code reads or loops behind its data. -/
inductive Failure
  | error (e : SnapshotError)
  | stuck
deriving DecidableEq

def orStuck {α : Type} : Option α → Except Failure α
  | none => .error .stuck
  | some a => .ok a

/-! ## The pool -/

/-- The values that `ecma_save_literals_append_value` does not leave out. -/
def isSaved (w : Nat) : Bool := isString w || (isBigint w && w != bigintZero) || isFloat w

/-- `ecma_save_literals_append_value`. -/
def appendValue (pool : List Nat) (w : Nat) : List Nat :=
  if isSaved w then
    if w ∈ pool then pool else pool ++ [w]
  else pool

def appendValues (pool ws : List Nat) : List Nat := ws.foldl appendValue pool

/-! ## The table -/

/-- The first loop of `ecma_save_literals_for_snapshot`. -/
def literalsSize (contents : Contents) (maxSize : Nat) : List Nat → Nat → Except Failure Nat
  | [], size => .ok size
  | w :: ws, size =>
    match contents w with
    | none => .error .stuck
    | some l =>
      if size + l.tableSize > maxSize then .error (.error .literalsTooLarge)
      else literalsSize contents maxSize ws (size + l.tableSize)

/-- The second loop of `ecma_save_literals_for_snapshot`: the map and the bytes of the table. -/
def writeLiterals (contents : Contents) (old : Nat → UInt8) : List Nat → Nat → Option (List (Nat × Nat) × List UInt8)
  | [], _ => some ([], [])
  | w :: ws, offset =>
    match contents w with
    | none => none
    | some l =>
      match writeLiterals contents old ws (offset + l.tableSize) with
      | none => none
      | some (map, bytes) => some ((w, offsetWord offset l) :: map, l.encode old offset ++ bytes)

/-- `ecma_save_literals_for_snapshot`. The space is computed in `size_t`. -/
def saveLiterals (contents : Contents) (old : Nat → UInt8) (bufferSize writeOffset : Nat) (pool : List Nat) :
    Except Failure (List (Nat × Nat) × List UInt8) :=
  let available := (bufferSize + 2 ^ 64 - writeOffset) % 2 ^ 64
  (literalsSize contents (min available (2 ^ 27 - 1)) pool 0).bind fun _ =>
    orStuck (writeLiterals contents old pool 0)

/-- The search in the map. -/
def lookup (map : List (Nat × Nat)) (w : Nat) : Option Nat := (map.find? fun e => e.1 == w).map Prod.snd

/-! ## What is in the pool -/

theorem mem_appendValue {pool : List Nat} {w v : Nat} :
    v ∈ appendValue pool w ↔ v ∈ pool ∨ v = w ∧ isSaved w = true := by
  unfold appendValue
  by_cases hs : isSaved w = true
  · rw [if_pos hs]
    by_cases hw : w ∈ pool
    · rw [if_pos hw]
      constructor
      · exact Or.inl
      · intro h
        cases h with
        | inl hin => exact hin
        | inr heq => rw [heq.1]; exact hw
    · rw [if_neg hw]
      simp [hs]
  · rw [if_neg hs]
    simp [hs]

theorem mem_appendValues {pool ws : List Nat} {v : Nat} :
    v ∈ appendValues pool ws ↔ v ∈ pool ∨ v ∈ ws ∧ isSaved v = true := by
  induction ws generalizing pool with
  | nil => simp [appendValues]
  | cons w ws ih =>
    have hstep : appendValues pool (w :: ws) = appendValues (appendValue pool w) ws := rfl
    rw [hstep, ih, mem_appendValue, List.mem_cons, or_assoc]
    refine or_congr_right ?_
    constructor
    · intro h
      cases h with
      | inl heq => exact ⟨Or.inl heq.1, by rw [heq.1]; exact heq.2⟩
      | inr hin => exact ⟨Or.inr hin.1, hin.2⟩
    · intro h
      obtain ⟨hmem, hs⟩ := h
      cases hmem with
      | inl heq => exact Or.inl ⟨heq, by rw [← heq]; exact hs⟩
      | inr hin => exact Or.inr ⟨hin, hs⟩

/-! ## What is in the table -/

/-- The map and the table of a pool: every literal of the pool is found, and what is found is read from the table. -/
structure Saved (contents : Contents) (pool : List Nat) (map : List (Nat × Nat)) (table : List UInt8) : Prop where
  found : ∀ w ∈ pool, ∃ v, lookup map w = some v
  sound : ∀ w v, lookup map w = some v →
    w ∈ pool ∧ ∃ l, contents w = some l ∧ isSnapshotOffset v = true ∧ getLiteral table v = some l.narrow

variable {plain : List UInt8 → Prop} {contents : Contents} {old : Nat → UInt8} {pool : List Nat}

/-- The total size of the literals. -/
def poolSize (contents : Contents) (pool : List Nat) : Nat :=
  (pool.map fun w => ((contents w).map Literal.tableSize).getD 0).sum

theorem writeLiterals_spec (hwf : ∀ w l, contents w = some l → l.WellFormed plain) {map : List (Nat × Nat)}
    {bytes : List UInt8} (before : List UInt8) (h : writeLiterals contents old pool before.length = some (map, bytes)) :
    bytes.length = poolSize contents pool ∧ map.map Prod.fst = pool ∧
      ∀ e ∈ map, ∃ l, contents e.1 = some l ∧ isSnapshotOffset e.2 = true ∧
        ∀ behind, getLiteral (before ++ bytes ++ behind) e.2 = some l.narrow := by
  induction pool generalizing map bytes before with
  | nil =>
    cases h
    exact ⟨rfl, rfl, by simp⟩
  | cons w ws ih =>
    unfold writeLiterals at h
    cases hl : contents w with
    | none => rw [hl] at h; cases h
    | some l =>
      have hlen := encode_length old before.length (hwf w l hl)
      have hnext : (before ++ l.encode old before.length).length = before.length + l.tableSize := by
        rw [List.length_append, hlen]
      rw [hl] at h
      dsimp only at h
      rw [← hnext] at h
      cases hrest : writeLiterals contents old ws (before ++ l.encode old before.length).length with
      | none => rw [hrest] at h; cases h
      | some r =>
        obtain ⟨map', bytes'⟩ := r
        rw [hrest] at h
        cases h
        obtain ⟨h1, h2, h3⟩ := ih _ hrest
        refine ⟨?_, by rw [List.map_cons, h2], ?_⟩
        · rw [List.length_append, hlen, h1, poolSize, poolSize, List.map_cons, List.sum_cons, hl]
          rfl
        · intro e he
          cases List.mem_cons.mp he with
          | inl heq =>
            rw [heq]
            refine ⟨l, hl, offsetWord_isSnapshotOffset _ _, ?_⟩
            intro behind
            have hread := getLiteral_encode old before (bytes' ++ behind) (hwf w l hl)
            rw [← hread]
            simp only [List.append_assoc]
          | inr hin =>
            obtain ⟨l', g1, g2, g3⟩ := h3 e hin
            refine ⟨l', g1, g2, ?_⟩
            intro behind
            rw [← g3 behind]
            simp only [List.append_assoc]

theorem writeLiterals_some (hpool : ∀ w ∈ pool, (contents w).isSome) (offset : Nat) :
    ∃ r, writeLiterals contents old pool offset = some r := by
  induction pool generalizing offset with
  | nil => exact ⟨_, rfl⟩
  | cons w ws ih =>
    obtain ⟨l, hl⟩ := Option.isSome_iff_exists.mp (hpool w List.mem_cons_self)
    obtain ⟨r, hr⟩ := ih (fun v hv => hpool v (List.mem_cons_of_mem w hv)) (offset + l.tableSize)
    unfold writeLiterals
    rw [hl]
    dsimp only
    rw [hr]
    exact ⟨_, rfl⟩

/-- The literals of a pool take no more than the space that there is. -/
theorem literalsSize_le {maxSize size n : Nat} (h : literalsSize contents maxSize pool size = .ok n)
    (hsize : size ≤ maxSize) : size + poolSize contents pool ≤ maxSize := by
  induction pool generalizing size with
  | nil => exact hsize
  | cons w ws ih =>
    unfold literalsSize at h
    cases hl : contents w with
    | none => rw [hl] at h; cases h
    | some l =>
      rw [hl] at h
      dsimp only at h
      by_cases hbig : size + l.tableSize > maxSize
      · rw [if_pos hbig] at h; cases h
      · rw [if_neg hbig] at h
        rw [poolSize, List.map_cons, List.sum_cons, hl, ← Nat.add_assoc]
        exact ih h (Nat.le_of_not_lt hbig)

theorem literalsSize_not_stuck (hpool : ∀ w ∈ pool, (contents w).isSome) (maxSize size : Nat) :
    literalsSize contents maxSize pool size ≠ .error .stuck := by
  induction pool generalizing size with
  | nil => intro h; cases h
  | cons w ws ih =>
    obtain ⟨l, hl⟩ := Option.isSome_iff_exists.mp (hpool w List.mem_cons_self)
    unfold literalsSize
    rw [hl]
    dsimp only
    by_cases hbig : size + l.tableSize > maxSize
    · rw [if_pos hbig]
      intro h
      cases h
    · rw [if_neg hbig]
      exact ih (fun v hv => hpool v (List.mem_cons_of_mem w hv)) _

theorem saveLiterals_not_stuck (hpool : ∀ w ∈ pool, (contents w).isSome) (bufferSize writeOffset : Nat) :
    saveLiterals contents old bufferSize writeOffset pool ≠ .error .stuck := by
  unfold saveLiterals
  dsimp only
  have hwrite : ∃ r, writeLiterals contents old pool 0 = some r := writeLiterals_some hpool 0
  obtain ⟨r, hr⟩ := hwrite
  rw [hr]
  cases hsize : literalsSize contents (min ((bufferSize + 2 ^ 64 - writeOffset) % 2 ^ 64) (2 ^ 27 - 1)) pool 0 with
  | ok size => intro h; cases h
  | error e =>
    intro h
    have heq : e = .stuck := by
      cases h
      rfl
    rw [heq] at hsize
    exact literalsSize_not_stuck hpool _ _ hsize

theorem saveLiterals_ok (hwf : ∀ w l, contents w = some l → l.WellFormed plain) {bufferSize writeOffset : Nat}
    {map : List (Nat × Nat)} {table : List UInt8}
    (h : saveLiterals contents old bufferSize writeOffset pool = .ok (map, table)) :
    Saved contents pool map table ∧ table.length = poolSize contents pool := by
  unfold saveLiterals at h
  dsimp only at h
  cases hsize : literalsSize contents (min ((bufferSize + 2 ^ 64 - writeOffset) % 2 ^ 64) (2 ^ 27 - 1)) pool 0 with
  | error e => rw [hsize] at h; cases h
  | ok size =>
    rw [hsize] at h
    replace h : orStuck (writeLiterals contents old pool 0) = .ok (map, table) := h
    cases hwrite : writeLiterals contents old pool 0 with
    | none => rw [hwrite] at h; cases h
    | some r =>
      rw [hwrite] at h
      cases h
      obtain ⟨hlen, hkeys, hentries⟩ := writeLiterals_spec hwf [] hwrite
      refine ⟨⟨?_, ?_⟩, hlen⟩
      · intro w hw
        rw [← hkeys] at hw
        obtain ⟨e, he, heq⟩ := List.mem_map.mp hw
        have hfind : (map.find? fun e => e.1 == w).isSome :=
          List.find?_isSome.mpr ⟨e, he, beq_iff_eq.mpr heq⟩
        obtain ⟨e', he'⟩ := Option.isSome_iff_exists.mp hfind
        exact ⟨e'.2, by rw [lookup, he']; rfl⟩
      · intro w v hv
        obtain ⟨e, he, hev⟩ := Option.map_eq_some_iff.mp hv
        have hkey : e.1 = w := by
          have hp := List.find?_some he
          exact beq_iff_eq.mp hp
        have hmem := List.mem_of_find?_eq_some he
        obtain ⟨l, g1, g2, g3⟩ := hentries e hmem
        have hread := g3 []
        rw [List.nil_append, List.append_nil] at hread
        rw [hkey] at g1
        rw [hev] at g2 hread
        exact ⟨by rw [← hkeys, ← hkey]; exact List.mem_map_of_mem hmem, l, g1, g2, hread⟩

end Snapshot
end JJS
