import JJS.Jmem.Frame

/-!
# JJS.Jmem.Runs

Runs of the allocators: the free list of the main heap in every reachable state (`heap_invariant`), and that blocks do
not overlap when no requested size wraps around in the rounding (`blocks_disjoint`).
-/

namespace JJS
namespace Jmem

open FreeList Outcome

variable {cfg : Config} {P : Nat → Prop} {s s' : State}

/-! ## Steps -/

/-- What is known of the size that an operation asks for. -/
def Op.Asks (P : Nat → Prop) : Op → Prop
  | .alloc _ size _ => size ≠ 0 → P size
  | .realloc _ newSize _ => newSize ≠ 0 → P newSize
  | _ => True

theorem Op.asks_true (op : Op) : op.Asks fun _ => True := by
  cases op <;> simp [Op.Asks]

theorem Reachable.mono {allowed allowed' : Op → Prop} (hle : ∀ op, allowed op → allowed' op)
    (h : Reachable cfg allowed s) : Reachable cfg allowed' s := by
  induction h with
  | init => exact Reachable.init
  | step _ hop hstep ih => exact Reachable.step ih (hle _ hop) hstep

theorem handOut_spec {n : Nat} {r : Chunk × State} (h : Got cfg P n [] r) : Holds cfg P [] (handOut n r) := by
  obtain ⟨chunk, s⟩ := r
  cases chunk with
  | none => exact h
  | some c => exact Inv.of_eq (s := s) h rfl rfl rfl

/-- The engine only writes to bytes that are not free. -/
theorem write_spec (data : Memory) (h : Holds cfg P [] s) :
    Holds cfg P [] { s with heap := { s.heap with mem := fun x => if owned cfg s x then data x else s.heap.mem x } } := by
  have hinv : Inv cfg P s s.live := h
  have hused : ∀ x, owned cfg s x = true → Used cfg s s.live x := by
    intro x hx
    unfold owned at hx
    unfold Used
    cases Bool.or_eq_true_iff.mp hx with
    | inl hpage =>
      obtain ⟨p, hp, hin⟩ := List.any_eq_true.mp hpage
      rw [decide_eq_true_iff] at hin
      have hle := cover_le_coverage (List.mem_map_of_mem (f := Page.region cfg) hp) x
      have hone : cover (p.region cfg) x = 1 := cover_inside hin.1 hin.2
      omega
    | inr hblock =>
      obtain ⟨b, hb, hin⟩ := List.any_eq_true.mp hblock
      rw [decide_eq_true_iff] at hin
      obtain ⟨ho, h1, h2⟩ := hin
      have hle := cover_le_coverage (mem_mainRegions hb ho) x
      have hone : cover b.region x = 1 := cover_inside h1 h2
      omega
  exact hinv.write (fun x hx => if_neg fun howned => hx (hused x howned)) rfl rfl rfl

theorem step_spec (hsizes : Sizes cfg P) (op : Op) (hop : op.Asks P) (h : Holds cfg P [] s) :
    Ensures (Excused cfg) (step cfg s op) (Holds cfg P []) := by
  cases op with
  | alloc fatal size plan =>
    have hstart : Holds cfg P [] { s with plan := plan } := Inv.of_eq (s := s) h rfl rfl rfl
    have hspec : Ensures (Excused cfg)
        (if fatal then allocBlockInternal cfg { s with plan := plan } size
          else allocBlockNullOnError cfg { s with plan := plan } size) (Got cfg P size []) := by
      split
      · exact allocBlockInternal_spec hsizes hop hstart
      · exact allocBlockNullOnError_spec hsizes hop hstart
    exact hspec.bind fun r hr => ensures_ok (handOut_spec hr)
  | free ptr => exact (holds_rules cfg P).collectBlock ptr h
  | realloc ptr newSize plan =>
    unfold step
    dsimp only
    cases hfind : s.live.find? fun b => decide (b.ptr = ptr) with
    | none => exact ensures_ok h
    | some b =>
      dsimp only
      by_cases hn : newSize = 0
      · rw [if_pos hn]
        exact ensures_ok h
      · rw [if_neg hn]
        have hstart : Holds cfg P [b] { s with live := s.live.erase b, plan := plan } :=
          (Inv.perm (List.perm_cons_erase (List.mem_of_find?_eq_some hfind)) h).of_eq rfl rfl rfl
        exact (reallocBlock_spec hsizes (hop hn) hstart).bind fun r hr => ensures_ok (handOut_spec hr)
  | collect ptrs => exact (holds_rules cfg P).collectBlocks ptrs h
  | write data => exact ensures_ok (write_spec data h)

theorem reachable_holds (hsizes : Sizes cfg P) (h : Reachable cfg (Op.Asks P) s) : Inv cfg P s s.live := by
  induction h with
  | init => exact inv_init cfg P
  | step hreach hop hstep ih =>
    have hspec := step_spec hsizes _ hop ih
    rw [hstep] at hspec
    exact hspec

/-- The bounds of the loops are no limit: when a page has room for a cell, every operation returns or the engine runs
out of memory. -/
theorem step_ends (hk : 0 < cellsPerPage cfg) (h : Reachable cfg (Op.Asks fun _ => True) s) (op : Op) :
    step cfg s op ≠ .error .endless := by
  intro hstep
  have hspec := step_spec ⟨trivial, fun _ _ => trivial⟩ op op.asks_true (reachable_holds ⟨trivial, fun _ _ => trivial⟩ h)
  rw [hstep] at hspec
  cases hspec with
  | inl hmem => cases hmem
  | inr hzero => omega

/-! ## The free list of the main heap -/

/-- The blocks of the main heap that are in use: the pages, and the live blocks that are no cells. -/
def mainBlocks (cfg : Config) (s : State) : List Region :=
  s.pages.map (Page.region cfg) ++ mainRegions s.live

structure HeapInvariant (cfg : Config) (s : State) (rs : List Region) : Prop where
  linked : Chain s.heap.mem 0 rs
  increasing : rs.Pairwise fun r t => offsetFromAddr r.addr < offsetFromAddr t.addr
  coalesced : rs.IsChain fun r t => r.stop ≠ t.addr
  regions : ∀ r ∈ rs, 0 < r.size ∧ Fits cfg.areaSize r
  partition : ∀ a, coverage (rs ++ mainBlocks cfg s) a = if 8 ≤ a ∧ a < 8 + cfg.areaSize then 1 else 0
  skip : s.heap.skip = 0 ∨ ∃ r ∈ rs, r.addr = s.heap.skip

theorem Spaced.pairwise {e : Nat} {rs : List Region} (h : Spaced e rs) : rs.Pairwise fun r t => r.stop < t.addr := by
  induction rs generalizing e with
  | nil => exact List.Pairwise.nil
  | cons r rs ih =>
    obtain ⟨-, -, h3⟩ := h
    exact List.Pairwise.cons (fun t ht => (h3.mem_bounds ht).1) (ih h3)

theorem heap_invariant (h : Reachable cfg (fun _ => True) s) : ∃ rs, HeapInvariant cfg s rs := by
  have hinv := reachable_holds ⟨trivial, fun _ _ => trivial⟩ (h.mono fun op _ => op.asks_true)
  obtain ⟨rs, hf, hc⟩ := hinv.free
  have hpair := Spaced.pairwise hf.spaced
  refine ⟨rs, hf.chain, ?_, ?_, ?_, ?_, hf.skip⟩
  · refine hpair.imp_of_mem ?_
    intro r t hr ht hlt
    have h8 := (hf.fits r hr).first
    have hle : r.addr ≤ r.stop := Nat.le_add_right _ _
    unfold offsetFromAddr
    omega
  · exact (hpair.imp fun hlt => Nat.ne_of_lt hlt).isChain
  · exact fun r hr => ⟨(hf.spaced.mem_bounds hr).2.1, hf.fits r hr⟩
  · intro a
    rw [coverage_append, mainBlocks, coverage_append, ← Nat.add_assoc]
    exact hc a

/-- The states after a list of operations. -/
def run (cfg : Config) (s : State) : List Op → Except Stop State
  | [] => .ok s
  | op :: ops => (step cfg s op).bind fun s => run cfg s ops

theorem reachable_run {allowed : Op → Prop} {ops : List Op} (hops : ∀ op ∈ ops, allowed op)
    (h : Reachable cfg allowed s) (hrun : run cfg s ops = .ok s') : Reachable cfg allowed s' := by
  induction ops generalizing s with
  | nil =>
    cases hrun
    exact h
  | cons op ops ih =>
    unfold run at hrun
    cases hstep : step cfg s op with
    | error e => rw [hstep] at hrun; cases hrun
    | ok s1 =>
      rw [hstep] at hrun
      exact ih (fun o ho => hops o (List.mem_cons_of_mem op ho))
        (Reachable.step h (hops op List.mem_cons_self) hstep) hrun

/-- A small heap: an area of 1016 bytes, and two cells on a page. -/
def smallHeap : Config where
  areaSize := 1016
  cellCount := 2
  gcLimit := 1024
  area_pos := by decide
  area_aligned := by decide
  area_lt := by decide
  gcLimit_pos := by decide

theorem heap_invariant_small : ∃ s, s.live = [⟨96, 100, .main⟩, ⟨64, 8, .cell⟩] ∧ ∃ rs, HeapInvariant smallHeap s rs := by
  have hrun : ((run smallHeap (State.init smallHeap) [.alloc false 8 [], .alloc true 100 []]).toOption.map State.live) =
      some [⟨96, 100, .main⟩, ⟨64, 8, .cell⟩] := by decide +kernel
  cases hres : run smallHeap (State.init smallHeap) [.alloc false 8 [], .alloc true 100 []] with
  | error e => rw [hres] at hrun; cases hrun
  | ok s =>
    rw [hres] at hrun
    exact ⟨s, Option.some.inj hrun, heap_invariant (reachable_run (fun _ _ => trivial) Reachable.init hres)⟩

/-! ## Blocks that do not overlap -/

/-- What the allocators have to keep apart: the bytes that were asked for, the free cells and the headers of the
pages. -/
def pieces (s : State) : List Region :=
  s.live.map (fun b => ⟨b.ptr, b.size⟩) ++ s.freeCells.map (fun c => ⟨c, cellSize⟩) ++
    s.pages.map fun p => ⟨p.addr, pageHeaderSize⟩

/-- A free of the block gives it to the allocator that produced it. -/
def FreedToOwner (cfg : Config) (s : State) (b : Block) : Prop :=
  match b.origin with
  | .cell => freeBlock cfg s b.ptr b.size = .ok (cellFree s b.ptr)
  | .main => ∃ prev, findPrev s.heap b.ptr = some prev ∧ freeBlock cfg s b.ptr b.size =
      .ok (s.shrink cfg (insertBlock s.heap b.ptr prev (alignSize b.size)) (alignSize b.size))

structure NoAliasing (cfg : Config) (s : State) : Prop where
  disjoint : (pieces s).Pairwise Region.Disjoint
  owner : ∀ b ∈ s.live, FreedToOwner cfg s b
  nodup : s.freeCells.Nodup

/-- The size does not wrap around when it is rounded. -/
def NoWrap (n : Nat) : Prop := n ≤ 2 ^ 64 - 8

theorem le_alignSize {n : Nat} (h : NoWrap n) : n ≤ alignSize n := by
  unfold NoWrap at h
  unfold alignSize
  omega

theorem sizes_noWrap (cfg : Config) : Sizes cfg fun n => 0 < n ∧ NoWrap n where
  page := by
    have hk := Nat.mod_lt cfg.cellCount.toNat (show 0 < 2 ^ 27 by omega)
    rw [pageSize_eq]
    unfold NoWrap cellsPerPage
    omega
  round := by
    intro n hn
    have hle := le_alignSize hn.2
    refine ⟨Nat.lt_of_lt_of_le hn.1 hle, ?_⟩
    unfold NoWrap alignSize
    omega

/-- A page is its header and its cells. -/
theorem cover_page (cfg : Config) (p : Page) (a : Nat) :
    cover (p.region cfg) a =
      cover ⟨p.addr, pageHeaderSize⟩ a + coverage ((p.cells cfg).map fun c => ⟨c, cellSize⟩) a := by
  have hcells : (p.cells cfg).map (fun c => (⟨c, cellSize⟩ : Region)) =
      (List.range (cellsPerPage cfg)).map fun i => ⟨p.addr + pageHeaderSize + cellSize * i, cellSize⟩ := by
    rw [Page.cells, List.map_map]
    rfl
  rw [hcells, coverage_pieces, ← cover_join, Page.region, pageSize_eq]
  rfl

theorem coverage_pages (cfg : Config) (pages : List Page) (a : Nat) :
    coverage (pages.map (Page.region cfg)) a =
      coverage (pages.map fun p => ⟨p.addr, pageHeaderSize⟩) a +
        coverage ((pages.flatMap (Page.cells cfg)).map fun c => ⟨c, cellSize⟩) a := by
  induction pages with
  | nil => rfl
  | cons p pages ih =>
    rw [List.map_cons, coverage_cons, ih, cover_page, List.map_cons, coverage_cons, List.flatMap_cons, List.map_append,
      coverage_append]
    omega

/-- The bytes that were asked for are in the rounded blocks and in the cells. -/
theorem coverage_blocks {bs : List Block} (hwrap : ∀ b ∈ bs, NoWrap b.size)
    (hcell : ∀ b ∈ bs, b.origin = .cell → alignSize b.size ≤ cellSize) (a : Nat) :
    coverage (bs.map fun b => ⟨b.ptr, b.size⟩) a ≤
      coverage (mainRegions bs) a + coverage ((cellPtrs bs).map fun c => ⟨c, cellSize⟩) a := by
  induction bs with
  | nil => exact Nat.zero_le _
  | cons b bs ih =>
    obtain ⟨p, n, o⟩ := b
    have hrec := ih (fun b hb => hwrap b (List.mem_cons_of_mem _ hb)) fun b hb => hcell b (List.mem_cons_of_mem _ hb)
    have hle : n ≤ alignSize n := le_alignSize (hwrap ⟨p, n, o⟩ List.mem_cons_self)
    rw [List.map_cons, coverage_cons]
    show cover ⟨p, n⟩ a + _ ≤ _
    cases o with
    | main =>
      have hmono := cover_mono (p := p) hle a
      rw [mainRegions_main, cellPtrs_main, coverage_cons]
      omega
    | cell =>
      have hsize : alignSize n ≤ cellSize := hcell ⟨p, n, .cell⟩ List.mem_cons_self rfl
      have hmono := cover_mono (p := p) (Nat.le_trans hle hsize) a
      rw [mainRegions_cell, cellPtrs_cell, List.map_cons, coverage_cons]
      omega

theorem coverage_pieces_le (hwrap : ∀ b ∈ s.live, NoWrap b.size) (h : Inv cfg P s s.live) (a : Nat) :
    coverage (pieces s) a ≤ 1 := by
  have hone := coverage_le_one h.free a
  have hblocks := coverage_blocks hwrap h.cell a
  have hpages := coverage_pages cfg s.pages a
  have hcells := coverage_perm (h.cells.map fun c => (⟨c, cellSize⟩ : Region)) a
  rw [List.map_append, coverage_append] at hcells
  rw [pieces, coverage_append, coverage_append]
  omega

theorem pieces_pos (hlive : ∀ b ∈ s.live, 0 < b.size) {r : Region} (hr : r ∈ pieces s) : 0 < r.size := by
  cases List.mem_append.mp hr with
  | inl hin =>
    cases List.mem_append.mp hin with
    | inl hblock =>
      obtain ⟨b, hb, rfl⟩ := List.mem_map.mp hblock
      exact hlive b hb
    | inr hcell =>
      obtain ⟨c, -, rfl⟩ := List.mem_map.mp hcell
      exact Nat.succ_pos _
  | inr hpage =>
    obtain ⟨p, -, rfl⟩ := List.mem_map.mp hpage
    exact Nat.succ_pos _

theorem freedToOwner {b : Block} (h : Inv cfg P s s.live) (hb : b ∈ s.live) : FreedToOwner cfg s b := by
  obtain ⟨p, n, o⟩ := b
  have hperm := Inv.perm (List.perm_cons_erase hb) h
  cases o with
  | cell =>
    obtain ⟨page, hfind⟩ := find_cell h hb rfl
    show freeBlock cfg s p n = _
    rw [freeBlock, hfind]
  | main =>
    obtain ⟨prev, hprev, -⟩ := giveBack hperm
    have hfind : cellocatorFind s.pages p = none := find_main h hb rfl
    refine ⟨prev, hprev, ?_⟩
    show freeBlock cfg s p n = _
    rw [freeBlock, hfind]
    dsimp only
    rw [hprev]
    rfl

theorem blocks_disjoint (h : Reachable cfg (Op.Asks NoWrap) s) : NoAliasing cfg s := by
  have hasks : ∀ op : Op, op.Asks NoWrap → op.Asks fun n => 0 < n ∧ NoWrap n := by
    intro op hop
    cases op with
    | alloc fatal size plan => exact fun hne => ⟨Nat.pos_of_ne_zero hne, hop hne⟩
    | realloc ptr newSize plan => exact fun hne => ⟨Nat.pos_of_ne_zero hne, hop hne⟩
    | free ptr => trivial
    | collect ptrs => trivial
    | write data => trivial
  have hinv := reachable_holds (sizes_noWrap cfg) (h.mono hasks)
  have hdisjoint := pairwise_disjoint (fun r hr => pieces_pos (fun b hb => (hinv.sizes b hb).1) hr) (coverage_pieces_le (fun b hb => (hinv.sizes b hb).2) hinv)
  refine ⟨hdisjoint, fun b hb => freedToOwner hinv hb, ?_⟩
  have hcells := (List.pairwise_append.mp (List.pairwise_append.mp hdisjoint).1).2.1
  refine (List.pairwise_map.mp hcells).imp ?_
  intro c d hcd heq
  have happart : c + cellSize ≤ d ∨ d + cellSize ≤ c := hcd
  unfold cellSize at happart
  omega

theorem blocks_disjoint_small :
    ∃ s, s.live = [⟨96, 100, .main⟩, ⟨64, 8, .cell⟩] ∧ NoAliasing smallHeap s := by
  have hrun : ((run smallHeap (State.init smallHeap) [.alloc false 8 [], .alloc true 100 []]).toOption.map State.live) =
      some [⟨96, 100, .main⟩, ⟨64, 8, .cell⟩] := by decide +kernel
  cases hres : run smallHeap (State.init smallHeap) [.alloc false 8 [], .alloc true 100 []] with
  | error e => rw [hres] at hrun; cases hrun
  | ok s =>
    rw [hres] at hrun
    refine ⟨s, Option.some.inj hrun, blocks_disjoint (reachable_run ?_ Reachable.init hres)⟩
    intro op hop
    cases List.mem_cons.mp hop with
    | inl heq => rw [heq]; exact fun _ => by unfold NoWrap; omega
    | inr hin => rw [List.mem_singleton.mp hin]; exact fun _ => by unfold NoWrap; omega

/-- A request of `SIZE_MAX` bytes is rounded to nothing and gets a cell. -/
theorem huge_block_overlaps :
    ¬ ∀ (cfg : Config) (s : State), Reachable cfg (fun _ => True) s → NoAliasing cfg s := by
  intro hall
  have hrun : ((run smallHeap (State.init smallHeap) [.alloc false 8 [], .alloc false (2 ^ 64 - 1) []]).toOption.map
      State.live) = some [⟨32, 2 ^ 64 - 1, .cell⟩, ⟨64, 8, .cell⟩] := by decide +kernel
  cases hres : run smallHeap (State.init smallHeap) [.alloc false 8 [], .alloc false (2 ^ 64 - 1) []] with
  | error e => rw [hres] at hrun; cases hrun
  | ok s =>
    rw [hres] at hrun
    have hlive : s.live = [⟨32, 2 ^ 64 - 1, .cell⟩, ⟨64, 8, .cell⟩] := Option.some.inj hrun
    have hdisjoint := (hall smallHeap s (reachable_run (fun _ _ => trivial) Reachable.init hres)).disjoint
    have hblocks := (List.pairwise_append.mp (List.pairwise_append.mp hdisjoint).1).1
    rw [hlive] at hblocks
    have hpair : 32 + (2 ^ 64 - 1) ≤ 64 ∨ 64 + 8 ≤ 32 := List.rel_of_pairwise_cons hblocks List.mem_cons_self
    omega

end Jmem
end JJS
