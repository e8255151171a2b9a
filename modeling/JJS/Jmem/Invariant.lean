import JJS.Lib.Outcome
import JJS.Jmem.Allocator

/-!
# JJS.Jmem.Invariant

The invariant of the two allocators. `Inv cfg P s bs` says that the free regions, the pages and the blocks `bs` of the
main heap cover each byte of the area once, and that the cells of the pages are the free cells and the cells of `bs`,
each once. During an operation `bs` are the live blocks and the ones the operation holds. `P` is what is known of the
sizes that were asked for.

Every function of the allocators has one lemma, and it says which blocks it adds to `bs` and takes from it.
-/

namespace JJS
namespace Jmem

open FreeList Outcome

/-! ## Sizes -/

theorem alignSize_aligned (n : Nat) : 8 ∣ alignSize n := Nat.dvd_mul_left 8 _

theorem alignSize_idem (n : Nat) : alignSize (alignSize n) = alignSize n := by
  unfold alignSize
  omega

/-- The number of cells of a page: the cell count without the bits that the product loses. -/
def cellsPerPage (cfg : Config) : Nat := cfg.cellCount.toNat % 2 ^ 27

theorem pageSize_eq (cfg : Config) : pageSize cfg = 24 + 32 * cellsPerPage cfg := by
  have h : (32 * cfg.cellCount).toNat = 32 * cfg.cellCount.toNat % 2 ^ 32 := UInt32.toNat_mul _ _
  rw [pageSize, h, pageHeaderSize, cellsPerPage]
  omega

theorem alignSize_pageSize (cfg : Config) : alignSize (pageSize cfg) = pageSize cfg := by
  have h := Nat.mod_lt cfg.cellCount.toNat (show 0 < 2 ^ 27 by omega)
  rw [pageSize_eq, alignSize]
  unfold cellsPerPage at *
  omega

/-- The distance of the last cell of a page from the first. -/
theorem lastCell_eq {cfg : Config} (h : 0 < cellsPerPage cfg) :
    (32 * (cfg.cellCount - 1)).toNat = 32 * (cellsPerPage cfg - 1) := by
  have hmul : (32 * (cfg.cellCount - 1)).toNat = 32 * (cfg.cellCount - 1).toNat % 2 ^ 32 := UInt32.toNat_mul _ _
  have hlt := cfg.cellCount.toNat_lt
  have hsub : (cfg.cellCount - 1).toNat = cfg.cellCount.toNat - 1 := by
    refine UInt32.toNat_sub_of_le _ _ ?_
    rw [UInt32.le_iff_toNat_le]
    unfold cellsPerPage at h
    show 1 ≤ cfg.cellCount.toNat
    omega
  rw [hmul, hsub]
  unfold cellsPerPage at *
  omega

/-! ## The invariant -/

def Page.region (cfg : Config) (p : Page) : Region := ⟨p.addr, pageSize cfg⟩

def Page.cells (cfg : Config) (p : Page) : List Nat :=
  (List.range (cellsPerPage cfg)).map fun i => p.addr + pageHeaderSize + cellSize * i

/-- The bytes of a block of the main heap. -/
def Block.region (b : Block) : Region := ⟨b.ptr, alignSize b.size⟩

def mainRegions (bs : List Block) : List Region := (bs.filter fun b => decide (b.origin = .main)).map Block.region

def cellPtrs (bs : List Block) : List Nat := (bs.filter fun b => decide (b.origin = .cell)).map Block.ptr

@[simp] theorem mainRegions_main (p n : Nat) (bs : List Block) :
    mainRegions (⟨p, n, .main⟩ :: bs) = ⟨p, alignSize n⟩ :: mainRegions bs := rfl

@[simp] theorem mainRegions_cell (p n : Nat) (bs : List Block) :
    mainRegions (⟨p, n, .cell⟩ :: bs) = mainRegions bs := rfl

@[simp] theorem cellPtrs_main (p n : Nat) (bs : List Block) : cellPtrs (⟨p, n, .main⟩ :: bs) = cellPtrs bs := rfl

@[simp] theorem cellPtrs_cell (p n : Nat) (bs : List Block) :
    cellPtrs (⟨p, n, .cell⟩ :: bs) = p :: cellPtrs bs := rfl

structure Inv (cfg : Config) (P : Nat → Prop) (s : State) (bs : List Block) : Prop where
  free : ∃ rs, FreeChain cfg.areaSize s.heap rs ∧
    ∀ a, coverage rs a + coverage (s.pages.map (Page.region cfg)) a + coverage (mainRegions bs) a =
      cover ⟨8, cfg.areaSize⟩ a
  pages : ∀ p ∈ s.pages, 0 < cellsPerPage cfg ∧ p.startP = p.addr + pageHeaderSize ∧
    p.endP = p.startP + cellSize * (cellsPerPage cfg - 1)
  cells : (s.freeCells ++ cellPtrs bs).Perm (s.pages.flatMap (Page.cells cfg))
  main : ∀ b ∈ bs, b.origin = .main → Fits cfg.areaSize b.region ∧ cellSize < alignSize b.size
  cell : ∀ b ∈ bs, b.origin = .cell → alignSize b.size ≤ cellSize
  sizes : ∀ b ∈ bs, P b.size

variable {cfg : Config} {P : Nat → Prop} {s s' : State} {b : Block} {bs bs' : List Block} {n : Nat}

theorem inv_init (cfg : Config) (P : Nat → Prop) : Inv cfg P (State.init cfg) [] where
  free := by
    refine ⟨[⟨8, cfg.areaSize⟩], freeChain_init cfg.area_pos cfg.area_aligned, ?_⟩
    intro a
    simp [State.init, mainRegions]
  pages := by simp [State.init]
  cells := by simp [State.init, cellPtrs]
  main := by simp
  cell := by simp
  sizes := by simp

/-- The order of the blocks does not matter. -/
theorem Inv.perm (hp : bs.Perm bs') (h : Inv cfg P s bs) : Inv cfg P s bs' where
  free := by
    obtain ⟨rs, hf, hc⟩ := h.free
    refine ⟨rs, hf, ?_⟩
    intro a
    have hmain : coverage (mainRegions bs') a = coverage (mainRegions bs) a :=
      coverage_perm ((hp.symm.filter _).map _) a
    rw [hmain]
    exact hc a
  pages := h.pages
  cells := ((hp.symm.filter _).map _ |>.append_left _).trans h.cells
  main := fun b hb => h.main b (hp.symm.subset hb)
  cell := fun b hb => h.cell b (hp.symm.subset hb)
  sizes := fun b hb => h.sizes b (hp.symm.subset hb)

theorem coverage_le_one (h : ∃ rs, FreeChain cfg.areaSize s.heap rs ∧
      ∀ a, coverage rs a + coverage (s.pages.map (Page.region cfg)) a + coverage (mainRegions bs) a =
        cover ⟨8, cfg.areaSize⟩ a) (a : Nat) :
    coverage (s.pages.map (Page.region cfg)) a + coverage (mainRegions bs) a ≤ 1 := by
  obtain ⟨rs, -, hc⟩ := h
  have := hc a
  have hle : cover ⟨8, cfg.areaSize⟩ a ≤ 1 := by
    unfold cover
    split <;> omega
  omega

/-! ## The owner of a block -/

theorem mem_mainRegions (hb : b ∈ bs) (ho : b.origin = .main) : b.region ∈ mainRegions bs :=
  List.mem_map_of_mem (List.mem_filter.mpr ⟨hb, by simp [ho]⟩)

theorem mem_cellPtrs (hb : b ∈ bs) (ho : b.origin = .cell) : b.ptr ∈ cellPtrs bs :=
  List.mem_map_of_mem (List.mem_filter.mpr ⟨hb, by simp [ho]⟩)

/-- The address of a cell leads to a page. -/
theorem find_cell (h : Inv cfg P s bs) (hb : b ∈ bs) (ho : b.origin = .cell) : ∃ p, cellocatorFind s.pages b.ptr = some p := by
  have hmem := h.cells.subset (List.mem_append_right s.freeCells (mem_cellPtrs hb ho))
  obtain ⟨p, hp, hcell⟩ := List.mem_flatMap.mp hmem
  obtain ⟨i, hi, heq⟩ := List.mem_map.mp hcell
  have hilt := List.mem_range.mp hi
  obtain ⟨hpos, hstart, hend⟩ := h.pages p hp
  have hin : (decide (p.startP ≤ b.ptr ∧ b.ptr ≤ p.endP)) = true := by
    rw [decide_eq_true_iff, hend, hstart, ← heq]
    unfold cellSize
    omega
  exact Option.isSome_iff_exists.mp (List.find?_isSome.mpr ⟨p, hp, hin⟩)

/-- The address of a block of the main heap leads to none. -/
theorem find_main (h : Inv cfg P s bs) (hb : b ∈ bs) (ho : b.origin = .main) : cellocatorFind s.pages b.ptr = none := by
  refine List.find?_eq_none.mpr ?_
  intro p hp hin
  rw [decide_eq_true_iff] at hin
  obtain ⟨hpos, hstart, hend⟩ := h.pages p hp
  obtain ⟨-, hsize⟩ := h.main b hb ho
  have hpage : cover (p.region cfg) b.ptr = 1 := by
    refine cover_inside ?_ ?_
    · show p.addr ≤ b.ptr
      omega
    · show b.ptr < p.addr + pageSize cfg
      rw [pageSize_eq]
      unfold cellSize pageHeaderSize at *
      omega
  have hblock : cover b.region b.ptr = 1 := by
    refine cover_inside (Nat.le_refl _) ?_
    show b.ptr < b.ptr + alignSize b.size
    omega
  have h1 := cover_le_coverage (List.mem_map_of_mem (f := Page.region cfg) hp) b.ptr
  have h2 := cover_le_coverage (mem_mainRegions hb ho) b.ptr
  have h3 := coverage_le_one h.free b.ptr
  omega

/-! ## Blocks come and go -/

theorem Inv.of_eq (h : Inv cfg P s bs) (h1 : s'.heap = s.heap) (h2 : s'.pages = s.pages)
    (h3 : s'.freeCells = s.freeCells) : Inv cfg P s' bs where
  free := by
    rw [h1, h2]
    exact h.free
  pages := by
    rw [h2]
    exact h.pages
  cells := by
    rw [h2, h3]
    exact h.cells
  main := h.main
  cell := h.cell
  sizes := h.sizes

theorem Inv.main_head {p : Nat} (h : Inv cfg P s (⟨p, n, .main⟩ :: bs)) :
    Fits cfg.areaSize ⟨p, alignSize n⟩ ∧ cellSize < alignSize n := h.main _ List.mem_cons_self rfl

/-- The free list around a block of the main heap. -/
theorem Inv.split {p : Nat} (h : Inv cfg P s (⟨p, n, .main⟩ :: bs)) :
    ∃ l t, FreeChain cfg.areaSize s.heap (l ++ t) ∧ (∀ r ∈ l, r.stop ≤ p) ∧ (∀ r ∈ t, p + alignSize n ≤ r.addr) ∧
      ∀ a, coverage (l ++ t) a + coverage (s.pages.map (Page.region cfg)) a + cover ⟨p, alignSize n⟩ a +
        coverage (mainRegions bs) a = cover ⟨8, cfg.areaSize⟩ a := by
  obtain ⟨rs, hf, hc⟩ := h.free
  have hpos : 0 < alignSize n := Nat.zero_lt_of_lt h.main_head.2
  have hzero : ∀ a, p ≤ a → a < p + alignSize n → coverage rs a = 0 := by
    intro a h1 h2
    have hca := hc a
    have hin : cover ⟨p, alignSize n⟩ a = 1 := cover_inside h1 h2
    have hle : cover ⟨8, cfg.areaSize⟩ a ≤ 1 := by
      unfold cover
      split <;> omega
    rw [mainRegions_main, coverage_cons, hin] at hca
    omega
  obtain ⟨l, t, rfl, hl, ht⟩ := hf.spaced.split_free hpos hzero
  refine ⟨l, t, hf, hl, ht, ?_⟩
  intro a
  rw [← hc a, mainRegions_main, coverage_cons]
  omega

/-- The heap gave a block out. -/
theorem Inv.takeMain {p : Nat} {heap : Heap} {rs : List Region} (hP : P n) (hn : cellSize < alignSize n)
    (ht : Taken cfg.areaSize rs ⟨p, alignSize n⟩ heap)
    (hc : ∀ a, coverage rs a + coverage (s.pages.map (Page.region cfg)) a + coverage (mainRegions bs) a =
      cover ⟨8, cfg.areaSize⟩ a)
    (h : Inv cfg P s bs) (hs : s'.heap = heap) (hpages : s'.pages = s.pages) (hcells : s'.freeCells = s.freeCells) :
    Inv cfg P s' (⟨p, n, .main⟩ :: bs) where
  free := by
    obtain ⟨-, rs', hf, hcov⟩ := ht
    rw [hs, hpages]
    refine ⟨rs', hf, ?_⟩
    intro a
    rw [mainRegions_main, coverage_cons, ← hc a, ← hcov a]
    omega
  pages := by
    rw [hpages]
    exact h.pages
  cells := by
    rw [hpages, hcells]
    exact h.cells
  main := by
    intro b hb ho
    cases List.mem_cons.mp hb with
    | inl heq => rw [heq]; exact ⟨ht.1, hn⟩
    | inr hin => exact h.main b hin ho
  cell := by
    intro b hb ho
    cases List.mem_cons.mp hb with
    | inl heq => rw [heq] at ho; cases ho
    | inr hin => exact h.cell b hin ho
  sizes := by
    intro b hb
    cases List.mem_cons.mp hb with
    | inl heq => rw [heq]; exact hP
    | inr hin => exact h.sizes b hin

/-- The heap took a block back. -/
theorem Inv.giveMain {p : Nat} {rs : List Region} (hf : FreeChain cfg.areaSize s'.heap rs)
    (hc : ∀ a, coverage rs a + coverage (s.pages.map (Page.region cfg)) a + coverage (mainRegions bs) a =
      cover ⟨8, cfg.areaSize⟩ a)
    (h : Inv cfg P s (⟨p, n, .main⟩ :: bs)) (hpages : s'.pages = s.pages) (hcells : s'.freeCells = s.freeCells) :
    Inv cfg P s' bs where
  free := by
    rw [hpages]
    exact ⟨rs, hf, hc⟩
  pages := by
    rw [hpages]
    exact h.pages
  cells := by
    rw [hpages, hcells]
    exact h.cells
  main := fun b hb => h.main b (List.mem_cons_of_mem _ hb)
  cell := fun b hb => h.cell b (List.mem_cons_of_mem _ hb)
  sizes := fun b hb => h.sizes b (List.mem_cons_of_mem _ hb)

theorem Inv.giveCell {p : Nat} (h : Inv cfg P s (⟨p, n, .cell⟩ :: bs)) : Inv cfg P (cellFree s p) bs where
  free := h.free
  pages := h.pages
  cells := List.perm_middle.symm.trans h.cells
  main := fun b hb => h.main b (List.mem_cons_of_mem _ hb)
  cell := fun b hb => h.cell b (List.mem_cons_of_mem _ hb)
  sizes := fun b hb => h.sizes b (List.mem_cons_of_mem _ hb)

theorem Inv.takeCell {p : Nat} {rest : List Nat} (hP : P n) (hn : alignSize n ≤ cellSize) (hs : s.freeCells = p :: rest)
    (h : Inv cfg P s bs) : Inv cfg P { s with freeCells := rest } (⟨p, n, .cell⟩ :: bs) where
  free := h.free
  pages := h.pages
  cells := by
    have hcells := h.cells
    rw [hs] at hcells
    exact List.perm_middle.trans hcells
  main := by
    intro b hb ho
    cases List.mem_cons.mp hb with
    | inl heq => rw [heq] at ho; cases ho
    | inr hin => exact h.main b hin ho
  cell := by
    intro b hb ho
    cases List.mem_cons.mp hb with
    | inl heq => rw [heq]; exact hn
    | inr hin => exact h.cell b hin ho
  sizes := by
    intro b hb
    cases List.mem_cons.mp hb with
    | inl heq => rw [heq]; exact hP
    | inr hin => exact h.sizes b hin

/-- A block of the main heap may be called by another size that is rounded to the same one. -/
theorem Inv.resizeMain {p m : Nat} (hP : P m) (hm : alignSize m = alignSize n) (h : Inv cfg P s (⟨p, n, .main⟩ :: bs)) :
    Inv cfg P s (⟨p, m, .main⟩ :: bs) where
  free := by
    rw [mainRegions_main, hm]
    exact h.free
  pages := h.pages
  cells := h.cells
  main := by
    intro b hb ho
    cases List.mem_cons.mp hb with
    | inl heq =>
      rw [heq]
      have hhead := h.main_head
      rw [← hm] at hhead
      exact hhead
    | inr hin => exact h.main b (List.mem_cons_of_mem _ hin) ho
  cell := by
    intro b hb ho
    cases List.mem_cons.mp hb with
    | inl heq => rw [heq] at ho; cases ho
    | inr hin => exact h.cell b (List.mem_cons_of_mem _ hin) ho
  sizes := by
    intro b hb
    cases List.mem_cons.mp hb with
    | inl heq => rw [heq]; exact hP
    | inr hin => exact h.sizes b (List.mem_cons_of_mem _ hin)

/-- A cell may be called by another size that fits in a cell. -/
theorem Inv.resizeCell {p m : Nat} (hP : P m) (hm : alignSize m ≤ cellSize) (h : Inv cfg P s (⟨p, n, .cell⟩ :: bs)) :
    Inv cfg P s (⟨p, m, .cell⟩ :: bs) where
  free := h.free
  pages := h.pages
  cells := h.cells
  main := by
    intro b hb ho
    cases List.mem_cons.mp hb with
    | inl heq => rw [heq] at ho; cases ho
    | inr hin => exact h.main b (List.mem_cons_of_mem _ hin) ho
  cell := by
    intro b hb ho
    cases List.mem_cons.mp hb with
    | inl heq => rw [heq]; exact hm
    | inr hin => exact h.cell b (List.mem_cons_of_mem _ hin) ho
  sizes := by
    intro b hb
    cases List.mem_cons.mp hb with
    | inl heq => rw [heq]; exact hP
    | inr hin => exact h.sizes b (List.mem_cons_of_mem _ hin)

theorem Inv.resize {p m : Nat} {o : Origin} (hP : P m) (hm : alignSize m = alignSize n) (h : Inv cfg P s (⟨p, n, o⟩ :: bs)) :
    Inv cfg P s (⟨p, m, o⟩ :: bs) := by
  cases o with
  | main => exact h.resizeMain hP hm
  | cell =>
    have hn := h.cell ⟨p, n, .cell⟩ List.mem_cons_self rfl
    rw [← hm] at hn
    exact h.resizeCell hP hn

/-! ## Freeing -/

/-- The stops that an operation may have: out of memory always, and no end when a page has no room for a cell. -/
def Excused (cfg : Config) (e : Stop) : Prop := e = .outOfMemory ∨ cellsPerPage cfg = 0

/-- The invariant with the live blocks and the ones that an operation holds. -/
def Holds (cfg : Config) (P : Nat → Prop) (held : List Block) (s : State) : Prop := Inv cfg P s (held ++ s.live)

/-- A loop that ends has its result. -/
theorem bounded_eq {α : Type} {x : Option α} {a : α} (h : x = some a) :
    Ensures (Excused cfg) (bounded x) fun a' => a' = a := by
  rw [h]
  exact ensures_ok rfl

theorem findPrev_block {p : Nat} {l t : List Region} (hn : 0 < alignSize n) (hfits : Fits cfg.areaSize ⟨p, alignSize n⟩)
    (hf : FreeChain cfg.areaSize s.heap (l ++ t)) (hl : ∀ r ∈ l, r.stop ≤ p)
    (ht : ∀ r ∈ t, p + alignSize n ≤ r.addr) : findPrev s.heap p = some (lastAddr 0 l) := by
  have hlast : p + alignSize n ≤ 8 + cfg.areaSize := hfits.last
  refine findPrev_spec cfg.area_lt (by omega) hf ?_ ?_
  · intro r hr
    have h1 := hl r hr
    have h2 := ((spaced_append.mp hf.spaced).1.mem_bounds hr).2.1
    simp only [Region.stop] at h1
    omega
  · intro r hr
    have := ht r hr
    omega

/-- A block of the main heap is put back into the list. -/
theorem giveBack {p : Nat} (h : Inv cfg P s (⟨p, n, .main⟩ :: bs)) :
    ∃ prev, findPrev s.heap p = some prev ∧
      ∀ s' : State, s'.heap = insertBlock s.heap p prev (alignSize n) → s'.pages = s.pages →
        s'.freeCells = s.freeCells → Inv cfg P s' bs := by
  obtain ⟨hfits, hsize⟩ := h.main_head
  obtain ⟨l, t, hf, hl, ht, hc⟩ := h.split
  have hpos : 0 < alignSize n := Nat.zero_lt_of_lt hsize
  refine ⟨lastAddr 0 l, findPrev_block hpos hfits hf hl ht, ?_⟩
  intro s' hheap hpages hcells
  obtain ⟨rs, hf', hc'⟩ := insertBlock_spec cfg.area_lt hfits hpos hf hl ht
  rw [← hheap] at hf'
  refine h.giveMain hf' ?_ hpages hcells
  intro a
  rw [hc' a, ← hc a]
  omega

theorem freeBlock_spec {p m : Nat} {o : Origin} (hm : alignSize m = alignSize n) (h : Inv cfg P s (⟨p, n, o⟩ :: bs)) :
    Ensures (Excused cfg) (freeBlock cfg s p m) fun s' => Inv cfg P s' bs ∧ s'.live = s.live := by
  unfold freeBlock
  cases o with
  | cell =>
    obtain ⟨page, hfind⟩ := find_cell h List.mem_cons_self rfl
    rw [hfind]
    exact ⟨h.giveCell, rfl⟩
  | main =>
    rw [find_main h List.mem_cons_self rfl]
    obtain ⟨prev, hprev, hgive⟩ := giveBack h
    rw [hm]
    refine (bounded_eq hprev).bind ?_
    intro q hq
    rw [hq]
    exact ensures_ok ⟨hgive _ rfl rfl rfl, rfl⟩

end Jmem
end JJS
