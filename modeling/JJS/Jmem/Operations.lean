import JJS.Jmem.Rules

/-!
# JJS.Jmem.Operations

The functions of the allocators keep the invariant. For a collection, a cell, a page and an allocation this is
`holds_rules`; the ways of a reallocation follow.
-/

namespace JJS
namespace Jmem

open FreeList Outcome

variable {cfg : Config} {P : Nat → Prop} {s : State} {held : List Block} {n : Nat}

/-! ## Allocations -/

/-- What an allocation of `n` bytes leaves: the same blocks, or one more. -/
def Got (cfg : Config) (P : Nat → Prop) (n : Nat) (held : List Block) : Chunk × State → Prop
  | (none, s) => Holds cfg P held s
  | (some (p, o), s) => Holds cfg P (⟨p, n, o⟩ :: held) s

theorem gives_holds : Gives (Holds cfg P) n held = Got cfg P n held := by
  funext r
  obtain ⟨chunk, s⟩ := r
  cases chunk <;> rfl

/-- With the last pressure an allocation does not return null: it stops before. -/
theorem retryAlloc_full {alloc : State → Nat → Except Stop (Chunk × State)} (rounds : Nat) (pressure : Pressure)
    (hrounds : pressure.toNat + rounds = 3) (hpressure : pressure ≠ .full) {chunk : Chunk} {s' : State}
    (h : retryAlloc cfg alloc n rounds pressure s = .ok (chunk, s')) : chunk ≠ none := by
  induction rounds generalizing s pressure with
  | zero => cases pressure <;> simp [Pressure.toNat] at hrounds hpressure
  | succ rounds ih =>
    unfold retryAlloc at h
    by_cases hnext : pressure.next = .full
    · rw [freeUnusedMemory, if_pos hnext] at h
      cases h
    · cases hfree : freeUnusedMemory cfg s pressure.next with
      | error e => rw [hfree] at h; cases h
      | ok s1 =>
        rw [hfree] at h
        replace h : (alloc s1 n).bind _ = _ := h
        cases halloc : alloc s1 n with
        | error e => rw [halloc] at h; cases h
        | ok r =>
          obtain ⟨chunk1, s2⟩ := r
          rw [halloc] at h
          cases chunk1 with
          | none =>
            refine ih pressure.next ?_ hnext h
            cases pressure <;> simp [Pressure.toNat, Pressure.next] at hrounds hnext ⊢ <;> omega
          | some c =>
            cases h
            exact Option.some_ne_none c

theorem allocBlockInternal_ne_none (hn : n ≠ 0) {chunk : Chunk} {s' : State}
    (h : allocBlockInternal cfg s n = .ok (chunk, s')) : chunk ≠ none := by
  unfold allocBlockInternal gcAndAllocBlock at h
  rw [if_neg hn] at h
  dsimp only at h
  have hpressure : (if (s.allocatedSize + n) % 2 ^ 64 ≥ s.limit then Pressure.low else Pressure.none) = .low ∨
      (if (s.allocatedSize + n) % 2 ^ 64 ≥ s.limit then Pressure.low else Pressure.none) = .none := by
    split
    · exact Or.inl rfl
    · exact Or.inr rfl
  generalize (if (s.allocatedSize + n) % 2 ^ 64 ≥ s.limit then Pressure.low else Pressure.none) = pressure at h hpressure
  cases hfirst : (if pressure = .low then freeUnusedMemory cfg s .low else .ok s) with
  | error e => rw [hfirst] at h; cases h
  | ok s1 =>
    rw [hfirst] at h
    replace h : (heapAlloc cfg allocDepth s1 n).bind _ = _ := h
    cases halloc : heapAlloc cfg allocDepth s1 n with
    | error e => rw [halloc] at h; cases h
    | ok r =>
      obtain ⟨chunk1, s2⟩ := r
      rw [halloc] at h
      cases chunk1 with
      | none =>
        refine retryAlloc_full _ pressure ?_ ?_ h
        · cases hpressure with
          | inl hlow => rw [hlow]; rfl
          | inr hnone => rw [hnone]; rfl
        · cases hpressure with
          | inl hlow => rw [hlow]; decide
          | inr hnone => rw [hnone]; decide
      | some c =>
        cases h
        exact Option.some_ne_none c

/-! ## Cells and pages -/

/-- The loop puts the cells of a page on the list of free cells. -/
theorem pushCells_eq {endP k : Nat} (fuel iter : Nat) (freeCells : List Nat) (hfuel : k < fuel)
    (hin : ∀ i, i < k → iter + cellSize * i ≤ endP) (hout : endP < iter + cellSize * k) :
    pushCells endP fuel iter freeCells =
      some (((List.range k).map fun i => iter + cellSize * i).reverse ++ freeCells) := by
  induction k generalizing fuel iter freeCells with
  | zero =>
    cases fuel with
    | zero => exact absurd hfuel (Nat.not_lt_zero _)
    | succ fuel => rw [pushCells, if_neg (by omega)]; rfl
  | succ k ih =>
    cases fuel with
    | zero => exact absurd hfuel (Nat.not_lt_zero _)
    | succ fuel =>
      have hfirst := hin 0 (Nat.succ_pos k)
      have hshift : ∀ i, iter + cellSize + cellSize * i = iter + cellSize * (i + 1) := by
        intro i
        rw [Nat.mul_succ]
        omega
      rw [pushCells, if_pos (by omega), ih fuel (iter + cellSize) (iter :: freeCells) (by omega)]
      · rw [List.range_succ_eq_map, List.map_cons, List.map_map, List.reverse_cons, List.append_assoc]
        congr 3
        · congr 1
          funext i
          exact hshift i
      · intro i hi
        rw [hshift]
        exact hin (i + 1) (by omega)
      · rw [hshift]
        exact hout

/-- A page is as big as its header and its cells. -/
theorem cells_fit (hk : 0 < cellsPerPage cfg) (p : Nat) (freeCells : List Nat) :
    pushCells (p + pageHeaderSize + (32 * (cfg.cellCount - 1)).toNat) (cfg.cellCount.toNat + 1) (p + pageHeaderSize)
        freeCells =
      some (((List.range (cellsPerPage cfg)).map fun i => p + pageHeaderSize + cellSize * i).reverse ++ freeCells) := by
  have hcount : cellsPerPage cfg ≤ cfg.cellCount.toNat := Nat.mod_le _ _
  refine pushCells_eq _ _ _ (by omega) ?_ ?_
  · intro i hi
    rw [lastCell_eq hk, cellSize]
    omega
  · rw [lastCell_eq hk, cellSize]
    omega

/-- A block of the main heap becomes a page. -/
theorem Inv.addPage {p : Nat} {bs : List Block} (h : Inv cfg P s (⟨p, pageSize cfg, .main⟩ :: bs)) :
    ∃ freeCells, pushCells (p + pageHeaderSize + (32 * (cfg.cellCount - 1)).toNat) (cfg.cellCount.toNat + 1)
        (p + pageHeaderSize) s.freeCells = some freeCells ∧
      Inv cfg P { s with
        pages := ⟨p, p + pageHeaderSize, p + pageHeaderSize + (32 * (cfg.cellCount - 1)).toNat⟩ :: s.pages
        freeCells := freeCells } bs := by
  have hk : 0 < cellsPerPage cfg := by
    have hsize := h.main_head.2
    rw [alignSize_pageSize, pageSize_eq, cellSize] at hsize
    omega
  refine ⟨_, cells_fit hk p s.freeCells, ?_, ?_, ?_, ?_, ?_, ?_⟩
  · obtain ⟨rs, hf, hc⟩ := h.free
    refine ⟨rs, hf, ?_⟩
    intro a
    rw [← hc a, mainRegions_main, coverage_cons, alignSize_pageSize, List.map_cons, coverage_cons]
    show coverage rs a + (cover ⟨p, pageSize cfg⟩ a + _) + _ = _
    omega
  · intro page hpage
    cases List.mem_cons.mp hpage with
    | inl heq =>
      rw [heq]
      refine ⟨hk, rfl, ?_⟩
      show _ + (32 * (cfg.cellCount - 1)).toNat = _
      rw [lastCell_eq hk]
      rfl
    | inr hin => exact h.pages page hin
  · have hcells := h.cells
    rw [cellPtrs_main] at hcells
    rw [List.flatMap_cons, List.append_assoc]
    exact (List.reverse_perm _).append hcells
  · exact fun b hb => h.main b (List.mem_cons_of_mem _ hb)
  · exact fun b hb => h.cell b (List.mem_cons_of_mem _ hb)
  · exact fun b hb => h.sizes b (List.mem_cons_of_mem _ hb)

/-- A page is a block of the main heap: only a page without cells is small enough for a cell, and then there are no
cells. -/
theorem Inv.page_main {p : Nat} {o : Origin} {bs : List Block} (h : Inv cfg P s (⟨p, pageSize cfg, o⟩ :: bs)) :
    o = .main := by
  cases o with
  | main => rfl
  | cell =>
    have hsize := h.cell ⟨p, pageSize cfg, .cell⟩ List.mem_cons_self rfl
    have hmem := h.cells.subset (List.mem_append_right s.freeCells (mem_cellPtrs List.mem_cons_self rfl))
    obtain ⟨page, hpage, -⟩ := List.mem_flatMap.mp hmem
    have hk := (h.pages page hpage).1
    have hfalse : ¬ alignSize (pageSize cfg) ≤ cellSize := by
      rw [alignSize_pageSize, pageSize_eq, cellSize]
      omega
    exact absurd hsize hfalse

/-- The slow path gives nothing, or a region of the main heap that is counted. -/
theorem allocMain_eq_ok {required : Nat} {r : Chunk × State} (h : allocMain cfg s required = .ok r) :
    r = (none, s) ∨ ∃ p heap, allocLoop s.heap required (cfg.areaSize + 8) 0 (s.heap.mem 0).nextOffset =
      some (some (p, heap)) ∧ r = (some (p, .main), s.grow cfg heap required) := by
  unfold allocMain at h
  cases hloop : allocLoop s.heap required (cfg.areaSize + 8) 0 (s.heap.mem 0).nextOffset with
  | none => rw [hloop] at h; cases h
  | some found =>
    rw [hloop] at h
    cases found with
    | none =>
      cases h
      exact Or.inl rfl
    | some c =>
      obtain ⟨p, heap⟩ := c
      cases h
      exact Or.inr ⟨p, heap, rfl, rfl⟩

theorem allocMain_spec (hP : P n) (hn : cellSize < alignSize n) (h : Holds cfg P held s) :
    Ensures (Excused cfg) (allocMain cfg s (alignSize n)) (Got cfg P n held) := by
  obtain ⟨rs, hf, hc⟩ := Inv.free h
  have hloop := allocLoop_spec (l := []) (t := rs) cfg.area_lt (Nat.zero_lt_of_lt hn) (alignSize_aligned n) _ hf.length_lt hf
  unfold allocMain
  cases hloop with
  | inl hnone =>
    refine (bounded_eq hnone).bind ?_
    intro found hfound
    rw [hfound]
    exact ensures_ok h
  | inr hsome =>
    obtain ⟨p, heap, heq, htaken⟩ := hsome
    refine (bounded_eq heq).bind ?_
    intro found hfound
    rw [hfound]
    exact ensures_ok (Inv.takeMain hP hn htaken hc h rfl rfl rfl)

theorem holds_rules (cfg : Config) (P : Nat → Prop) : Rules cfg P (Holds cfg P) where
  plan := fun held s plan h => Inv.of_eq (s := s) h rfl rfl rfl
  free := by
    intro held s b hb h
    have hperm : (held ++ s.live).Perm (b :: (held ++ s.live.erase b)) :=
      ((List.perm_cons_erase hb).append_left held).trans List.perm_middle
    have hinv : Inv cfg P { s with live := s.live.erase b } (b :: (held ++ s.live.erase b)) :=
      (Inv.perm hperm h).of_eq rfl rfl rfl
    refine (freeBlock_spec rfl hinv).mono ?_
    intro s' hs'
    obtain ⟨h1, h2⟩ := hs'
    unfold Holds
    rw [h2]
    exact h1
  cell := fun held s n p rest hP hn hfree h => Inv.takeCell hP hn hfree h
  main := by
    intro held s n hP hn h
    rw [gives_holds]
    exact allocMain_spec hP hn h
  page := by
    intro held s p o h
    have ho := Inv.page_main h
    rw [ho] at h
    exact Inv.addPage h

theorem heapAlloc_spec (hsizes : Sizes cfg P) (depth n : Nat) (hP : P n) (held : List Block) (s : State)
    (hdepth : cellsPerPage cfg = 0 ∨ 2 ≤ depth ∨ 1 ≤ depth ∧ cellSize < alignSize n) (h : Holds cfg P held s) :
    Ensures (Excused cfg) (heapAlloc cfg depth s n) (Got cfg P n held) := by
  rw [← gives_holds]
  exact (holds_rules cfg P).heapAlloc hsizes depth n hP held s hdepth h

theorem allocBlockInternal_spec (hsizes : Sizes cfg P) (hP : n ≠ 0 → P n) (h : Holds cfg P held s) :
    Ensures (Excused cfg) (allocBlockInternal cfg s n) (Got cfg P n held) := by
  rw [← gives_holds]
  exact (holds_rules cfg P).allocBlockInternal hsizes hP h

theorem allocBlockNullOnError_spec (hsizes : Sizes cfg P) (hP : n ≠ 0 → P n) (h : Holds cfg P held s) :
    Ensures (Excused cfg) (allocBlockNullOnError cfg s n) (Got cfg P n held) := by
  rw [← gives_holds]
  exact (holds_rules cfg P).allocBlockNullOnError hsizes hP h

/-! ## Reallocations -/

section

variable {p old : Nat}

theorem moveBlock_spec (hsizes : Sizes cfg P) (hP : P n) (h : Holds cfg P (⟨p, old, .main⟩ :: held) s) :
    Ensures (Excused cfg) (moveBlock cfg s p (alignSize old) n) (Got cfg P n held) := by
  unfold moveBlock
  have hstart : Holds cfg P (⟨p, old, .main⟩ :: held) { s with allocatedSize := s.allocatedSize - alignSize old } :=
    Inv.of_eq (s := s) h rfl rfl rfl
  refine (allocBlockInternal_spec hsizes (fun _ => hP) hstart).bind ?_
  intro r hr
  obtain ⟨chunk, s'⟩ := r
  cases chunk with
  | none =>
    obtain ⟨prev, hprev, hgive⟩ := giveBack (s := s') hr
    refine (bounded_eq hprev).bind ?_
    intro q hq
    rw [hq]
    exact ensures_ok (hgive _ rfl rfl rfl)
  | some c =>
    obtain ⟨p', o⟩ := c
    have hswap : Inv cfg P s' (⟨p, old, .main⟩ :: ⟨p', n, o⟩ :: (held ++ s'.live)) := Inv.perm (List.Perm.swap _ _ _) hr
    obtain ⟨prev, hprev, hgive⟩ := giveBack hswap
    refine (bounded_eq hprev).bind ?_
    intro q hq
    rw [hq]
    exact ensures_ok (hgive _ rfl rfl rfl)

/-- A block that is extended in place. -/
theorem Inv.extend {p' : Nat} {heap : Heap} {l t : List Region} {bs : List Block} (hP : P n)
    (h : Inv cfg P s (⟨p, old, .main⟩ :: bs))
    (hc : ∀ a, coverage (l ++ t) a + coverage (s.pages.map (Page.region cfg)) a + cover ⟨p, alignSize old⟩ a +
        coverage (mainRegions bs) a = cover ⟨8, cfg.areaSize⟩ a)
    {taken : Region} (htaken : Taken cfg.areaSize (l ++ t) taken heap)
    (hfits : Fits cfg.areaSize ⟨p', alignSize n⟩) (hn : cellSize < alignSize n)
    (hcover : ∀ a, cover ⟨p', alignSize n⟩ a = cover ⟨p, alignSize old⟩ a + cover taken a) {s' : State}
    (hs : s'.heap = heap) (hpages : s'.pages = s.pages) (hcells : s'.freeCells = s.freeCells) :
    Inv cfg P s' (⟨p', n, .main⟩ :: bs) where
  free := by
    obtain ⟨-, rs, hf, hcov⟩ := htaken
    rw [hs, hpages]
    refine ⟨rs, hf, ?_⟩
    intro a
    rw [mainRegions_main, coverage_cons, hcover a, ← hc a, ← hcov a]
    omega
  pages := by
    rw [hpages]
    exact h.pages
  cells := by
    rw [hpages, hcells]
    exact h.cells
  main := by
    intro b hb ho
    cases List.mem_cons.mp hb with
    | inl heq => rw [heq]; exact ⟨hfits, hn⟩
    | inr hin => exact h.main b (List.mem_cons_of_mem _ hin) ho
  cell := by
    intro b hb ho
    cases List.mem_cons.mp hb with
    | inl heq => rw [heq] at ho; cases ho
    | inr hin => exact h.cell b (List.mem_cons_of_mem _ hin) ho
  sizes := by
    intro b hb
    cases List.mem_cons.mp hb with
    | inl heq => rw [heq]; exact hP
    | inr hin => exact h.sizes b (List.mem_cons_of_mem _ hin)

theorem growBlock_spec (hsizes : Sizes cfg P) (hP : P n) (hlt : alignSize old < alignSize n) (h : Holds cfg P (⟨p, old, .main⟩ :: held) s) :
    Ensures (Excused cfg) (growBlock cfg s p (alignSize old) n) (Got cfg P n held) := by
  unfold growBlock
  dsimp only
  generalize hm : alignSize n - alignSize old = m
  have hm8 : 8 ∣ m := by
    rw [← hm]
    exact Nat.dvd_sub (alignSize_aligned n) (alignSize_aligned old)
  have hfirst : Ensures (Excused cfg)
      (if (s.allocatedSize + m) % 2 ^ 64 ≥ s.limit then freeUnusedMemory cfg s .low else .ok s)
      (Holds cfg P (⟨p, old, .main⟩ :: held)) := by
    split
    · exact (holds_rules cfg P).freeUnusedMemory .low h
    · exact ensures_ok h
  refine hfirst.bind ?_
  intro s1 h1
  have hinv : Inv cfg P s1 (⟨p, old, .main⟩ :: (held ++ s1.live)) := h1
  obtain ⟨hfits, hsize⟩ := hinv.main_head
  obtain ⟨l, t, hf, hl, ht, hc⟩ := hinv.split
  have hspec := extendBlock_spec (n := m) cfg.area_lt hfits (Nat.zero_lt_of_lt hsize) (by omega) hm8 hf hl ht
  have hlast := hfits.last
  simp only [Region.stop] at hlast
  cases hspec with
  | inl hnone =>
    refine (bounded_eq hnone).bind ?_
    intro e he
    rw [he]
    exact moveBlock_spec hsizes hP h1
  | inr hsome =>
    obtain ⟨heap, hcases⟩ := hsome
    cases hcases with
    | inl hend =>
      obtain ⟨heq, htaken⟩ := hend
      refine (bounded_eq heq).bind ?_
      intro e he
      rw [he]
      have hjoin : ∀ a, cover ⟨p, alignSize n⟩ a = cover ⟨p, alignSize old⟩ a + cover ⟨p + alignSize old, m⟩ a := by
        intro a
        rw [← cover_join]
        congr 2
        omega
      have hfits' : Fits cfg.areaSize ⟨p, alignSize n⟩ := by
        have hlast' := htaken.1.last
        simp only [Region.stop] at hlast'
        refine ⟨hfits.addr_aligned, alignSize_aligned n, hfits.first, ?_⟩
        simp only [Region.stop]
        omega
      exact ensures_ok (hinv.extend hP hc htaken hfits' (by omega) hjoin rfl rfl rfl)
    | inr hfront =>
      obtain ⟨heq, htaken, hle⟩ := hfront
      refine (bounded_eq heq).bind ?_
      intro e he
      rw [he]
      have hjoin : ∀ a, cover ⟨p - m, alignSize n⟩ a = cover ⟨p, alignSize old⟩ a + cover ⟨p - m, m⟩ a := by
        intro a
        have hcov := cover_join (p - m) m (alignSize old) a
        rw [Nat.sub_add_cancel hle] at hcov
        have hsum : m + alignSize old = alignSize n := by omega
        rw [hsum] at hcov
        rw [hcov, Nat.add_comm]
      have hfits' : Fits cfg.areaSize ⟨p - m, alignSize n⟩ := by
        refine ⟨htaken.1.addr_aligned, alignSize_aligned n, htaken.1.first, ?_⟩
        simp only [Region.stop]
        omega
      exact ensures_ok (hinv.extend hP hc htaken hfits' (by omega) hjoin rfl rfl rfl)

theorem shrinkBlock_spec (hsizes : Sizes cfg P) (hP : P n) (hlt : alignSize n < alignSize old) (h : Holds cfg P (⟨p, old, .main⟩ :: held) s) :
    Ensures (Excused cfg) (shrinkBlock cfg s p (alignSize old) (alignSize n)) (Got cfg P n held) := by
  unfold shrinkBlock
  by_cases hn : alignSize n ≤ cellSize
  · rw [if_pos hn]
    refine (heapAlloc_spec hsizes allocDepth (alignSize n) (hsizes.round n hP) _ s (Or.inr (Or.inl (Nat.le_refl 2))) h).bind ?_
    intro r hr
    obtain ⟨chunk, s1⟩ := r
    cases chunk with
    | none =>
      have hinv : Inv cfg P s1 (⟨p, old, .main⟩ :: (held ++ s1.live)) := hr
      refine (freeBlock_spec (alignSize_idem old) hinv).bind ?_
      intro s2 h2
      refine ensures_ok ?_
      show Inv cfg P s2 (held ++ s2.live)
      rw [h2.2]
      exact h2.1
    | some c =>
      obtain ⟨p', o⟩ := c
      have hnew : Holds cfg P (⟨p', n, o⟩ :: ⟨p, old, .main⟩ :: held) s1 := Inv.resize hP (alignSize_idem n).symm hr
      have hswap : Inv cfg P s1 (⟨p, old, .main⟩ :: ⟨p', n, o⟩ :: (held ++ s1.live)) :=
        Inv.perm (List.Perm.swap _ _ _) hnew
      refine (freeBlock_spec (alignSize_idem old) hswap).bind ?_
      intro s2 h2
      refine ensures_ok ?_
      show Inv cfg P s2 (⟨p', n, o⟩ :: (held ++ s2.live))
      rw [h2.2]
      exact h2.1
  · rw [if_neg hn]
    have hinv : Inv cfg P s (⟨p, old, .main⟩ :: (held ++ s.live)) := h
    obtain ⟨hfits, hsize⟩ := hinv.main_head
    obtain ⟨l, t, hf, hl, ht, hc⟩ := hinv.split
    refine (bounded_eq (findPrev_block (Nat.zero_lt_of_lt hsize) hfits hf hl ht)).bind ?_
    intro prev hprev
    rw [hprev]
    have hlast := hfits.last
    simp only [Region.stop] at hlast
    have hsplit := cover_split (p := p) (Nat.le_of_lt hlt)
    have hrest : Fits cfg.areaSize ⟨p + alignSize n, alignSize old - alignSize n⟩ := by
      refine ⟨Nat.dvd_add hfits.addr_aligned (alignSize_aligned n), ?_, Nat.le_add_right_of_le hfits.first, ?_⟩
      · exact Nat.dvd_sub (alignSize_aligned old) (alignSize_aligned n)
      · simp only [Region.stop]
        omega
    obtain ⟨rs, hf', hc'⟩ := insertBlock_spec cfg.area_lt hrest (Nat.sub_pos_of_lt hlt) hf
      (fun r hr => Nat.le_add_right_of_le (hl r hr)) (fun r hr => by have := ht r hr; omega)
    refine ensures_ok (show Inv cfg P _ (⟨p, n, .main⟩ :: (held ++ s.live)) from ⟨⟨rs, hf', ?_⟩, hinv.pages, hinv.cells, ?_, ?_, ?_⟩)
    · intro a
      rw [hc' a, mainRegions_main, coverage_cons, ← hc a, hsplit a]
      show _ + coverage (s.pages.map (Page.region cfg)) a + _ = _
      omega
    · intro b hb ho
      cases List.mem_cons.mp hb with
      | inl heq =>
        rw [heq]
        refine ⟨⟨hfits.addr_aligned, alignSize_aligned n, hfits.first, ?_⟩, Nat.lt_of_not_le hn⟩
        show p + alignSize n ≤ _
        omega
      | inr hin => exact hinv.main b (List.mem_cons_of_mem _ hin) ho
    · intro b hb ho
      cases List.mem_cons.mp hb with
      | inl heq => rw [heq] at ho; cases ho
      | inr hin => exact hinv.cell b (List.mem_cons_of_mem _ hin) ho
    · intro b hb
      cases List.mem_cons.mp hb with
      | inl heq => rw [heq]; exact hP
      | inr hin => exact hinv.sizes b (List.mem_cons_of_mem _ hin)

theorem reallocBlock_spec (hsizes : Sizes cfg P) (hP : P n) {o : Origin} (h : Holds cfg P (⟨p, old, o⟩ :: held) s) :
    Ensures (Excused cfg) (reallocBlock cfg s p old n) (Got cfg P n held) := by
  have hinv : Inv cfg P s (⟨p, old, o⟩ :: (held ++ s.live)) := h
  unfold reallocBlock
  dsimp only
  cases o with
  | cell =>
    obtain ⟨page, hfind⟩ := find_cell hinv List.mem_cons_self rfl
    rw [hfind]
    dsimp only
    by_cases hn : alignSize n ≤ cellSize
    · rw [if_pos hn]
      exact ensures_ok (Inv.resizeCell hP hn hinv)
    · rw [if_neg hn]
      -- the cell is freed when there is a new block, and with the last pressure there is one
      have hne : alignSize n ≠ 0 := by
        unfold cellSize at hn
        omega
      have hspec := allocBlockInternal_spec hsizes (fun _ => hsizes.round n hP) h
      cases halloc : allocBlockInternal cfg s (alignSize n) with
      | error e =>
        rw [halloc] at hspec
        exact hspec
      | ok r =>
        obtain ⟨chunk, s1⟩ := r
        have hsome := allocBlockInternal_ne_none hne halloc
        rw [halloc] at hspec
        cases chunk with
        | none => exact absurd rfl hsome
        | some c =>
          obtain ⟨p', o'⟩ := c
          have hnew : Holds cfg P (⟨p', n, o'⟩ :: ⟨p, old, .cell⟩ :: held) s1 := Inv.resize hP (alignSize_idem n).symm hspec
          exact ensures_ok (Inv.giveCell (Inv.perm (List.Perm.swap _ _ _) hnew))
  | main =>
    rw [find_main hinv List.mem_cons_self rfl]
    dsimp only
    by_cases heq : alignSize old = alignSize n
    · rw [if_pos heq]
      exact ensures_ok (Inv.resizeMain hP heq.symm hinv)
    · rw [if_neg heq]
      by_cases hlt : alignSize n < alignSize old
      · rw [if_pos hlt]
        exact shrinkBlock_spec hsizes hP hlt h
      · rw [if_neg hlt]
        exact growBlock_spec hsizes hP (by omega) h

end

end Jmem
end JJS
