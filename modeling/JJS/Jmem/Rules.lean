import JJS.Jmem.Invariant

/-!
# JJS.Jmem.Rules

Invariants of the allocators. `Rules cfg P I` says that `I` is kept when a collection frees a block, and when a cell, a
region of the main heap or a page is taken. These are all the ways in which an allocation changes the state, so that
every allocation keeps `I`. The invariant may speak of the blocks that the operation holds.
-/

namespace JJS
namespace Jmem

open FreeList Outcome

/-- What is known of the sizes holds of the sizes that the allocators ask for themselves. -/
structure Sizes (cfg : Config) (P : Nat → Prop) : Prop where
  page : P (pageSize cfg)
  round : ∀ n, P n → P (alignSize n)

/-- What an allocation of `n` bytes leaves: the same blocks, or one more. -/
def Gives (I : List Block → State → Prop) (n : Nat) (held : List Block) : Chunk × State → Prop
  | (none, s) => I held s
  | (some (p, o), s) => I (⟨p, n, o⟩ :: held) s

structure Rules (cfg : Config) (P : Nat → Prop) (I : List Block → State → Prop) : Prop where
  plan : ∀ held s plan, I held s → I held { s with plan := plan }
  free : ∀ held s b, b ∈ s.live → I held s →
    Ensures (Excused cfg) (freeBlock cfg { s with live := s.live.erase b } b.ptr b.size) (I held)
  cell : ∀ held s n p rest, P n → alignSize n ≤ cellSize → s.freeCells = p :: rest → I held s →
    I (⟨p, n, .cell⟩ :: held) { s with freeCells := rest }
  main : ∀ held s n, P n → cellSize < alignSize n → I held s →
    Ensures (Excused cfg) (allocMain cfg s (alignSize n)) (Gives I n held)
  page : ∀ held s p o, I (⟨p, pageSize cfg, o⟩ :: held) s →
    ∃ freeCells, pushCells (p + pageHeaderSize + (32 * (cfg.cellCount - 1)).toNat) (cfg.cellCount.toNat + 1)
        (p + pageHeaderSize) s.freeCells = some freeCells ∧
      I held { s with
        pages := ⟨p, p + pageHeaderSize, p + pageHeaderSize + (32 * (cfg.cellCount - 1)).toNat⟩ :: s.pages
        freeCells := freeCells }

namespace Rules

variable {cfg : Config} {P : Nat → Prop} {I : List Block → State → Prop} {s : State} {held : List Block} {n : Nat}

/-! ## Collections -/

theorem collectBlock (hI : Rules cfg P I) (ptr : Nat) (h : I held s) :
    Ensures (Excused cfg) (collectBlock cfg s ptr) (I held) := by
  unfold Jmem.collectBlock
  cases hfind : s.live.find? fun b => decide (b.ptr = ptr) with
  | none => exact ensures_ok h
  | some b => exact hI.free held s b (List.mem_of_find?_eq_some hfind) h

theorem collectBlocks (hI : Rules cfg P I) (ptrs : List Nat) (h : I held s) :
    Ensures (Excused cfg) (collectBlocks cfg s ptrs) (I held) := by
  induction ptrs generalizing s with
  | nil => exact ensures_ok h
  | cons ptr ptrs ih => exact (hI.collectBlock ptr h).bind fun s' hs' => ih hs'

theorem freeUnusedMemory (hI : Rules cfg P I) (pressure : Pressure) (h : I held s) :
    Ensures (Excused cfg) (freeUnusedMemory cfg s pressure) (I held) := by
  unfold Jmem.freeUnusedMemory
  by_cases hfull : pressure = .full
  · rw [if_pos hfull]
    exact Or.inl rfl
  · rw [if_neg hfull]
    cases s.plan with
    | nil => exact ensures_ok h
    | cons ptrs plan => exact hI.collectBlocks ptrs (hI.plan held s plan h)

/-! ## Rounds -/

theorem retryAlloc (hI : Rules cfg P I) {alloc : State → Nat → Except Stop (Chunk × State)}
    (halloc : ∀ s, I held s → Ensures (Excused cfg) (alloc s n) (Gives I n held)) (rounds : Nat)
    (pressure : Pressure) (h : I held s) :
    Ensures (Excused cfg) (retryAlloc cfg alloc n rounds pressure s) (Gives I n held) := by
  induction rounds generalizing s pressure with
  | zero => exact ensures_ok h
  | succ rounds ih =>
    refine (hI.freeUnusedMemory pressure.next h).bind fun s1 h1 => (halloc s1 h1).bind ?_
    intro r hr
    obtain ⟨chunk, s2⟩ := r
    cases chunk with
    | none => exact ih pressure.next hr
    | some c => exact ensures_ok hr

theorem gcAndAllocBlock (hI : Rules cfg P I) {alloc : State → Nat → Except Stop (Chunk × State)}
    (halloc : n ≠ 0 → ∀ s, I held s → Ensures (Excused cfg) (alloc s n) (Gives I n held))
    (maxPressure : Pressure) (h : I held s) :
    Ensures (Excused cfg) (gcAndAllocBlock cfg alloc s n maxPressure) (Gives I n held) := by
  unfold Jmem.gcAndAllocBlock
  by_cases hn : n = 0
  · rw [if_pos hn]
    exact ensures_ok h
  · rw [if_neg hn]
    dsimp only
    generalize (if (s.allocatedSize + n) % 2 ^ 64 ≥ s.limit then Pressure.low else Pressure.none) = pressure
    have hfirst : Ensures (Excused cfg) (if pressure = .low then Jmem.freeUnusedMemory cfg s .low else .ok s)
        (I held) := by
      split
      · exact hI.freeUnusedMemory .low h
      · exact ensures_ok h
    refine hfirst.bind fun s1 h1 => (halloc hn s1 h1).bind ?_
    intro r hr
    obtain ⟨chunk, s2⟩ := r
    cases chunk with
    | none => exact hI.retryAlloc (halloc hn) _ pressure hr
    | some c => exact ensures_ok hr

/-! ## Allocations -/

theorem takeCell (hI : Rules cfg P I) (hP : P n) (hn : alignSize n ≤ cellSize) (h : I held s) :
    Gives I n held (takeCell s) := by
  unfold Jmem.takeCell cellocatorAlloc
  cases hfree : s.freeCells with
  | nil => exact h
  | cons cell rest => exact hI.cell held s n cell rest hP hn hfree h

theorem addPage (hI : Rules cfg P I) {alloc : State → Nat → Except Stop (Chunk × State)}
    (halloc : ∀ s, I held s → Ensures (Excused cfg) (alloc s (pageSize cfg)) (Gives I (pageSize cfg) held))
    (h : I held s) : Ensures (Excused cfg) (addPage cfg alloc s) fun r => I held r.2 := by
  unfold Jmem.addPage
  refine (hI.gcAndAllocBlock (fun _ => halloc) .high h).bind ?_
  intro r hr
  obtain ⟨chunk, s'⟩ := r
  cases chunk with
  | none => exact ensures_ok hr
  | some c =>
    obtain ⟨p, o⟩ := c
    obtain ⟨freeCells, hpush, hpage⟩ := hI.page held s' p o hr
    refine (bounded_eq hpush).bind ?_
    intro cells hcells
    rw [hcells]
    exact ensures_ok hpage

theorem heapAlloc (hI : Rules cfg P I) (hsizes : Sizes cfg P) (depth n : Nat) (hP : P n) (held : List Block) (s : State)
    (hdepth : cellsPerPage cfg = 0 ∨ 2 ≤ depth ∨ 1 ≤ depth ∧ cellSize < alignSize n) (h : I held s) :
    Ensures (Excused cfg) (heapAlloc cfg depth s n) (Gives I n held) := by
  induction depth generalizing n s with
  | zero =>
    cases hdepth with
    | inl hzero => exact Or.inr hzero
    | inr hsome => omega
  | succ depth ih =>
    unfold Jmem.heapAlloc
    dsimp only
    by_cases hn : alignSize n ≤ cellSize
    · rw [if_pos hn]
      have hpage : ∀ s, I held s →
          Ensures (Excused cfg) (Jmem.heapAlloc cfg depth s (pageSize cfg)) (Gives I (pageSize cfg) held) := by
        intro s hs
        refine ih (pageSize cfg) hsizes.page s ?_ hs
        by_cases hk : cellsPerPage cfg = 0
        · exact Or.inl hk
        · have hsize : cellSize < alignSize (pageSize cfg) := by
            rw [alignSize_pageSize, pageSize_eq, cellSize]
            omega
          cases hdepth with
          | inl hzero => exact absurd hzero hk
          | inr hsome => exact Or.inr (Or.inr ⟨by omega, hsize⟩)
      have second : ∀ s, I held s → Ensures (Excused cfg)
          ((Jmem.addPage cfg (Jmem.heapAlloc cfg depth) s).bind fun r =>
            if r.1 then .ok (Jmem.takeCell r.2) else .ok (none, r.2))
          (Gives I n held) := by
        intro s hs
        refine (hI.addPage hpage hs).bind ?_
        intro r hr
        split
        · exact ensures_ok (hI.takeCell hP hn hr)
        · exact ensures_ok hr
      have hfirst := hI.takeCell hP hn h
      generalize Jmem.takeCell s = r at hfirst
      obtain ⟨chunk, s1⟩ := r
      cases chunk with
      | some c => exact ensures_ok hfirst
      | none =>
        refine (hI.freeUnusedMemory .low hfirst).bind ?_
        intro s2 h2
        have hagain := hI.takeCell hP hn h2
        generalize Jmem.takeCell s2 = r at hagain
        obtain ⟨chunk, s3⟩ := r
        cases chunk with
        | some c => exact ensures_ok hagain
        | none => exact second s3 hagain
    · rw [if_neg hn]
      exact hI.main held s n hP (Nat.lt_of_not_le hn) h

theorem allocBlockInternal (hI : Rules cfg P I) (hsizes : Sizes cfg P) (hP : n ≠ 0 → P n) (h : I held s) :
    Ensures (Excused cfg) (allocBlockInternal cfg s n) (Gives I n held) :=
  hI.gcAndAllocBlock
    (fun hn s hs => hI.heapAlloc hsizes allocDepth n (hP hn) held s (Or.inr (Or.inl (Nat.le_refl 2))) hs) .full h

theorem allocBlockNullOnError (hI : Rules cfg P I) (hsizes : Sizes cfg P) (hP : n ≠ 0 → P n) (h : I held s) :
    Ensures (Excused cfg) (allocBlockNullOnError cfg s n) (Gives I n held) :=
  hI.gcAndAllocBlock
    (fun hn s hs => hI.heapAlloc hsizes allocDepth n (hP hn) held s (Or.inr (Or.inl (Nat.le_refl 2))) hs) .high h

end Rules

end Jmem
end JJS
