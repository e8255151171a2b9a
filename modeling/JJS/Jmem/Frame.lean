import JJS.Jmem.Operations

/-!
# JJS.Jmem.Frame

What the allocators leave alone. They write to the first header and to headers in the free regions only, so that the
bytes of the blocks in use stay as they are: `framed_rules`, and `freeBlock_frame` for a block that goes back.
-/

namespace JJS
namespace Jmem

open FreeList Outcome

/-! ## Headers -/

section

variable {areaSize n x : Nat} {h h' : Heap} {l t : List Region}

theorem takeMemory_of_ne {m : Memory} {prev current required : Nat} (h1 : x ≠ prev)
    (h2 : required < (m current).size → x ≠ current + required) : takeMemory m prev current required x = m x := by
  unfold takeMemory
  by_cases hlt : (m current).size > required
  · rw [if_pos hlt]
    have hne := h2 hlt
    rw [setNext_of_ne _ _ _ h1, setNext_of_ne _ _ _ hne, setSize_of_ne _ _ _ hne]
  · rw [if_neg hlt, setNext_of_ne _ _ _ h1]

theorem joinNext_of_ne {m : Memory} {block next : Nat} (hx : x ≠ block) : joinNext m block next x = m x := by
  unfold joinNext
  split
  · rw [setNext_of_ne _ _ _ hx, setSize_of_ne _ _ _ hx]
  · rw [setNext_of_ne _ _ _ hx]

theorem insertBlock_of_ne {block prev size : Nat} (h1 : x ≠ prev) (h2 : x ≠ block) :
    (insertBlock h block prev size).mem x = h.mem x := by
  unfold insertBlock
  dsimp only
  split
  · exact (joinNext_of_ne h1).trans (setSize_of_ne _ _ _ h1)
  · exact (joinNext_of_ne h2).trans ((setNext_of_ne _ _ _ h1).trans (setSize_of_ne _ _ _ h2))

/-- An address that is not the first header and not in a free region. -/
def Outside (rs : List Region) (x : Nat) : Prop := x ≠ 0 ∧ coverage rs x = 0

theorem Outside.ne_of_inside {rs : List Region} {r : Region} {a : Nat} (hx : Outside rs x) (hr : r ∈ rs)
    (h1 : r.addr ≤ a) (h2 : a < r.stop) : x ≠ a := by
  intro heq
  have hle := cover_le_coverage hr a
  rw [cover_inside h1 h2, ← heq, hx.2] at hle
  exact absurd hle (by decide)

theorem Outside.ne_lastAddr (hx : Outside (l ++ t) x) (hf : FreeChain areaSize h (l ++ t)) : x ≠ lastAddr 0 l := by
  cases lastAddr_cases 0 l with
  | inl hnil =>
    rw [hnil.2]
    exact hx.1
  | inr hsome =>
    obtain ⟨l', r, rfl, hr⟩ := hsome
    have hmem : r ∈ l' ++ [r] ++ t := by simp
    rw [hr]
    exact hx.ne_of_inside hmem (Nat.le_refl _) (Nat.lt_add_of_pos_right (hf.spaced.mem_bounds hmem).2.1)

/-- Taking the front of a region. -/
theorem Outside.takeMemory {r : Region} (hx : Outside (l ++ r :: t) x) (hf : FreeChain areaSize h (l ++ r :: t)) :
    takeMemory h.mem (lastAddr 0 l) r.addr n x = h.mem x := by
  obtain ⟨g1, g2, g3⟩ := chain_cons.mp (chain_append.mp hf.chain).2
  refine takeMemory_of_ne (hx.ne_lastAddr hf) ?_
  intro hlt
  rw [g2] at hlt
  exact hx.ne_of_inside (by simp) (Nat.le_add_right _ _) (Nat.add_lt_add_left hlt r.addr)

theorem allocLoop_frame (harea : areaSize + 8 < 2 ^ 32) {fuel p : Nat} (hf : FreeChain areaSize h (l ++ t))
    (hx : Outside (l ++ t) x)
    (hres : allocLoop h n fuel (lastAddr 0 l) (h.mem (lastAddr 0 l)).nextOffset = some (some (p, h'))) :
    h'.mem x = h.mem x := by
  induction t generalizing l fuel with
  | nil =>
    cases fuel with
    | zero => cases hres
    | succ fuel =>
      have hnil : (h.mem (lastAddr 0 l)).nextOffset = endOfList := (chain_append.mp hf.chain).2.2
      rw [allocLoop, if_pos hnil] at hres
      cases hres
  | cons r t ih =>
    cases fuel with
    | zero => cases hres
    | succ fuel =>
      have hr : Fits areaSize r := hf.fits r (by simp)
      obtain ⟨g1, g2, g3⟩ := chain_cons.mp (chain_append.mp hf.chain).2
      have h8 := hr.first
      have hlast := hr.last
      have hstop : r.addr ≤ r.stop := Nat.le_add_right _ _
      have haddr : addrFromOffset (offsetFromAddr r.addr) = r.addr := by
        rw [addrFromOffset, offsetFromAddr]
        omega
      have hne : offsetFromAddr r.addr ≠ endOfList := by
        rw [offsetFromAddr, endOfList]
        omega
      rw [allocLoop, g1, if_neg hne, haddr] at hres
      dsimp only at hres
      by_cases hbig : (h.mem r.addr).size ≥ n
      · rw [if_pos hbig] at hres
        cases hres
        exact hx.takeMemory hf
      · have hsplit : l ++ r :: t = (l ++ [r]) ++ t := by simp
        have hlastr : lastAddr 0 (l ++ [r]) = r.addr := by rw [lastAddr_append]; rfl
        rw [if_neg hbig] at hres
        rw [hsplit] at hf hx
        rw [← hlastr] at hres
        exact ih hf hx hres

theorem extendBlock_frame (harea : areaSize + 8 < 2 ^ 32) {b old p : Nat} (hb : Fits areaSize ⟨b, old⟩)
    (hf : FreeChain areaSize h (l ++ t)) (hl : ∀ r ∈ l, r.stop ≤ b) (ht : ∀ r ∈ t, b + old ≤ r.addr) (hold : 0 < old)
    (hx : Outside (l ++ t) x) (hres : extendBlock h b old n = some (some (p, h'))) : h'.mem x = h.mem x := by
  have h8 : 8 ≤ b := hb.first
  have hlast : b + old ≤ 8 + areaSize := hb.last
  obtain ⟨hlink, htail⟩ := chain_append.mp hf.chain
  have hlt : ∀ r ∈ l, r.addr < b := by
    intro r hr
    have h1 := hl r hr
    have h2 := ((spaced_append.mp hf.spaced).1.mem_bounds hr).2.1
    simp only [Region.stop] at h1
    omega
  have hprev := findPrev_spec harea (by omega) hf hlt (fun r hr => by have := ht r hr; omega)
  have hne := hx.ne_lastAddr hf
  unfold extendBlock at hres
  rw [hprev, Option.bind_some] at hres
  dsimp only at hres
  by_cases hend : b + old = addrFromOffset (h.mem (lastAddr 0 l)).nextOffset
  · rw [if_pos hend] at hres
    cases t with
    | nil =>
      have hnil : (h.mem (lastAddr 0 l)).nextOffset = endOfList := htail.2
      rw [hnil, addrFromOffset, endOfList] at hend
      omega
    | cons r t =>
      obtain ⟨g1, g2, g3⟩ := chain_cons.mp htail
      have hr8 := (hf.fits r (by simp)).first
      have haddr : addrFromOffset (h.mem (lastAddr 0 l)).nextOffset = r.addr := by
        rw [g1, addrFromOffset, offsetFromAddr]
        omega
      rw [haddr] at hres
      by_cases hbig : n ≤ (h.mem r.addr).size
      · rw [if_pos hbig] at hres
        cases hres
        exact hx.takeMemory hf
      · rw [if_neg hbig] at hres
        cases hres
  · rw [if_neg hend] at hres
    by_cases hfront : regionEnd h.mem (lastAddr 0 l) = b
    · rw [if_pos hfront] at hres
      by_cases hbig : n ≤ (h.mem (lastAddr 0 l)).size
      · rw [if_pos hbig] at hres
        by_cases hall : n = (h.mem (lastAddr 0 l)).size
        · rw [if_pos hall] at hres
          cases lastAddr_cases 0 l with
          | inl hnil =>
            rw [hnil.2, regionEnd, hf.first] at hfront
            omega
          | inr hsome =>
            -- the region goes, and the header before it is a header of the list too
            obtain ⟨l', q, rfl, hq⟩ := hsome
            rw [List.append_assoc, List.singleton_append] at hf hx
            have hqlast := (hf.fits q (by simp)).last
            have hbefore : ∀ r ∈ l', r.addr < q.addr := by
              intro r hr
              have h1 := (spaced_append.mp hf.spaced).1.mem_bounds hr
              have h2 : lastStop 0 l' < q.addr := (spaced_append.mp hf.spaced).2.1
              have h3 : r.addr ≤ r.stop := Nat.le_add_right _ _
              omega
            have hbehind : ∀ r ∈ q :: t, q.addr ≤ r.addr := by
              intro r hr
              cases List.mem_cons.mp hr with
              | inl heq => exact Nat.le_of_eq (congrArg Region.addr heq.symm)
              | inr hin =>
                have h1 := ht r hin
                have h2 := hlt q (by simp)
                omega
            have hstop : q.addr ≤ q.stop := Nat.le_add_right _ _
            rw [hq, findPrev_spec harea (by omega) hf hbefore hbehind] at hres
            cases hres
            exact setNext_of_ne _ _ _ (hx.ne_lastAddr hf)
        · rw [if_neg hall] at hres
          cases hres
          exact setSize_of_ne _ _ _ hne
      · rw [if_neg hbig] at hres
        cases hres
    · rw [if_neg hfront] at hres
      cases hres

end

/-! ## Blocks -/

/-- The number of bytes that the allocators gave to a block. -/
def Block.room (b : Block) : Nat :=
  match b.origin with
  | .cell => cellSize
  | .main => alignSize b.size

def Block.Owns (b : Block) (x : Nat) : Prop := b.ptr ≤ x ∧ x < b.ptr + b.room

/-- The address is in a page or in a block of the main heap. -/
def Used (cfg : Config) (s : State) (bs : List Block) (x : Nat) : Prop :=
  1 ≤ coverage (s.pages.map (Page.region cfg)) x + coverage (mainRegions bs) x

variable {cfg : Config} {P : Nat → Prop} {s s' : State} {b : Block} {bs bs' : List Block} {n x : Nat}

theorem used_of_owns (h : Inv cfg P s bs) (hb : b ∈ bs) (hx : b.Owns x) (hb' : b ∈ bs') : Used cfg s bs' x := by
  obtain ⟨p, n, o⟩ := b
  obtain ⟨h1, h2⟩ := hx
  unfold Used
  cases o with
  | main =>
    have hle := cover_le_coverage (mem_mainRegions hb' rfl) x
    have hone : cover (Block.region ⟨p, n, .main⟩) x = 1 := cover_inside h1 h2
    omega
  | cell =>
    have hmem := h.cells.subset (List.mem_append_right s.freeCells (mem_cellPtrs hb rfl))
    obtain ⟨page, hpage, hcell⟩ := List.mem_flatMap.mp hmem
    obtain ⟨i, hi, heq⟩ := List.mem_map.mp hcell
    have hilt := List.mem_range.mp hi
    have hptr : page.addr + pageHeaderSize + cellSize * i = p := heq
    have hstart : p ≤ x := h1
    have hstop : x < p + cellSize := h2
    have hone : cover (page.region cfg) x = 1 := by
      refine cover_inside ?_ ?_
      · show page.addr ≤ x
        omega
      · show x < page.addr + pageSize cfg
        rw [pageSize_eq]
        unfold cellSize pageHeaderSize at *
        omega
    have hle := cover_le_coverage (List.mem_map_of_mem (f := Page.region cfg) hpage) x
    omega

theorem Used.outside {rs : List Region} (hx : Used cfg s bs x)
    (hc : ∀ a, coverage rs a + coverage (s.pages.map (Page.region cfg)) a + coverage (mainRegions bs) a ≤
      cover ⟨8, cfg.areaSize⟩ a) : Outside rs x := by
  have h := hc x
  unfold Used at hx
  have hle : cover ⟨8, cfg.areaSize⟩ x ≤ 1 := by
    unfold cover
    split <;> omega
  have hin : 0 < cover ⟨8, cfg.areaSize⟩ x := by omega
  have h8 : 8 ≤ x := (cover_pos_iff.mp hin).1
  exact ⟨by omega, by omega⟩

/-- A partition has no byte twice. -/
theorem Used.not_covered {r : Region} {m : Nat} (hx : Used cfg s bs x)
    (hc : m + coverage (s.pages.map (Page.region cfg)) x + cover r x + coverage (mainRegions bs) x =
      cover ⟨8, cfg.areaSize⟩ x) : cover r x = 0 := by
  have hle : cover ⟨8, cfg.areaSize⟩ x ≤ 1 := by
    unfold cover
    split <;> omega
  unfold Used at hx
  omega

/-- Writing to blocks and pages does not touch the free list. -/
theorem Inv.write {m : Memory} (h : Inv cfg P s bs) (hm : ∀ x, ¬ Used cfg s bs x → m x = s.heap.mem x)
    (h1 : s'.heap = ⟨m, s.heap.skip⟩) (h2 : s'.pages = s.pages) (h3 : s'.freeCells = s.freeCells) :
    Inv cfg P s' bs where
  free := by
    obtain ⟨rs, hf, hc⟩ := h.free
    have hout : ∀ x, Used cfg s bs x → Outside rs x := fun x hx => hx.outside fun a => Nat.le_of_eq (hc a)
    rw [h1, h2]
    refine ⟨rs, hf.congr (hm 0 fun hx => (hout 0 hx).1 rfl) ?_, hc⟩
    intro r hr
    refine hm r.addr fun hx => ?_
    exact (hout r.addr hx).ne_of_inside hr (Nat.le_refl _) (Nat.lt_add_of_pos_right (hf.spaced.mem_bounds hr).2.1) rfl
  pages := by
    rw [h2]
    exact h.pages
  cells := by
    rw [h2, h3]
    exact h.cells
  main := h.main
  cell := h.cell
  sizes := h.sizes

/-- Pages and blocks begin at multiples of 8. -/
theorem Inv.aligned (h : Inv cfg P s bs) (hb : b ∈ bs) : 8 ∣ b.ptr := by
  obtain ⟨p, n, o⟩ := b
  cases o with
  | main => exact (h.main _ hb rfl).1.addr_aligned
  | cell =>
    have hmem := h.cells.subset (List.mem_append_right s.freeCells (mem_cellPtrs hb rfl))
    obtain ⟨page, hpage, hcell⟩ := List.mem_flatMap.mp hmem
    obtain ⟨i, hi, heq⟩ := List.mem_map.mp hcell
    obtain ⟨rs, hf, hc⟩ := h.free
    have hall : ∀ r ∈ rs ++ s.pages.map (Page.region cfg) ++ mainRegions bs, 0 < r.size ∧ 8 ∣ r.size := by
      intro r hr
      cases List.mem_append.mp hr with
      | inl hin =>
        cases List.mem_append.mp hin with
        | inl hfree => exact ⟨(hf.spaced.mem_bounds hfree).2.1, (hf.fits r hfree).size_aligned⟩
        | inr hpages =>
          obtain ⟨q, -, rfl⟩ := List.mem_map.mp hpages
          have hsize : (q.region cfg).size = 24 + 32 * cellsPerPage cfg := pageSize_eq cfg
          omega
      | inr hmain =>
        obtain ⟨c, hc, rfl⟩ := List.mem_map.mp hmain
        obtain ⟨hcin, hco⟩ := List.mem_filter.mp hc
        have hbig := (h.main c hcin (of_decide_eq_true hco)).2
        exact ⟨Nat.zero_lt_of_lt hbig, alignSize_aligned c.size⟩
    have hpart : ∀ a, coverage (rs ++ s.pages.map (Page.region cfg) ++ mainRegions bs) a = cover ⟨8, cfg.areaSize⟩ a := by
      intro a
      rw [coverage_append, coverage_append]
      exact hc a
    have haddr : 8 ∣ (page.region cfg).addr :=
      aligned_of_partition (fun r hr => (hall r hr).1) (fun r hr => (hall r hr).2) (Nat.dvd_refl 8) hpart
        (List.mem_append_left _ (List.mem_append_right rs (List.mem_map_of_mem hpage)))
    have hptr : page.addr + pageHeaderSize + cellSize * i = p := heq
    have haddr' : 8 ∣ page.addr := haddr
    show 8 ∣ p
    unfold pageHeaderSize cellSize at hptr
    omega

/-- A block of the main heap goes back into a memory in which the other blocks may have other bytes. -/
theorem insertBlock_congr {m m' : Memory} {skip block prev size : Nat} (hprev : m' prev = m prev)
    (hnext : m' (addrFromOffset (m prev).nextOffset) = m (addrFromOffset (m prev).nextOffset)) (hx : m' x = m x) :
    (insertBlock ⟨m', skip⟩ block prev size).mem x = (insertBlock ⟨m, skip⟩ block prev size).mem x := by
  have hset : ∀ (a v y : Nat), m' y = m y → setSize m' a v y = setSize m a v y := by
    intro a v y hy
    simp only [setSize, hy]
  have hjoin : ∀ {f f' : Memory} (a next : Nat), (f' a).size = (f a).size → f' next = f next → f' x = f x →
      joinNext f' a next x = joinNext f a next x := by
    intro f f' a next ha hn hfx
    have hend : regionEnd f' a = regionEnd f a := by rw [regionEnd, regionEnd, ha]
    unfold joinNext
    rw [hend, ha, hn]
    by_cases htouch : regionEnd f a = next
    · rw [if_pos htouch, if_pos htouch]
      simp only [setNext, setSize, hfx]
    · rw [if_neg htouch, if_neg htouch]
      simp only [setNext, hfx]
  have hsetNext : ∀ {f f' : Memory} (a v y : Nat), f' y = f y → setNext f' a v y = setNext f a v y := by
    intro f f' a v y hy
    simp only [setNext, hy]
  unfold insertBlock
  dsimp only
  rw [hprev]
  have hend : regionEnd m' prev = regionEnd m prev := by rw [regionEnd, regionEnd, hprev]
  rw [hend]
  split
  · exact hjoin _ _ (by rw [setSize_size_self, setSize_size_self]) (hset _ _ _ hnext) (hset _ _ _ hx)
  · refine hjoin _ _ ?_ (hsetNext _ _ _ (hset _ _ _ hnext)) (hsetNext _ _ _ (hset _ _ _ hx))
    rw [setNext_size, setNext_size, setSize_size_self, setSize_size_self]

/-- The place of a block in the free list, and what is written when the block is put there. -/
theorem giveBack_frame {p : Nat} (h : Inv cfg P s (⟨p, n, .main⟩ :: bs)) :
    ∃ prev, ∀ m : Memory, (∀ x, ¬ Used cfg s bs x → m x = s.heap.mem x) → findPrev ⟨m, s.heap.skip⟩ p = some prev ∧
      (∀ size x, Used cfg s bs x → (insertBlock ⟨m, s.heap.skip⟩ p prev size).mem x = m x) ∧
      ∀ size x, m x = s.heap.mem x →
        (insertBlock ⟨m, s.heap.skip⟩ p prev size).mem x = (insertBlock s.heap p prev size).mem x := by
  obtain ⟨hfits, hsize⟩ := h.main_head
  obtain ⟨l, t, hf, hl, ht, hc⟩ := h.split
  have hpos := Nat.zero_lt_of_lt hsize
  have hout : ∀ x, Used cfg s bs x → Outside (l ++ t) x := by
    intro x hx
    refine hx.outside ?_
    intro a
    rw [← hc a]
    omega
  have hlast : ¬ Used cfg s bs (lastAddr 0 l) := fun hx => (hout _ hx).ne_lastAddr hf rfl
  have hnext : ¬ Used cfg s bs (addrFromOffset (s.heap.mem (lastAddr 0 l)).nextOffset) := by
    intro hx
    obtain ⟨-, htail⟩ := chain_append.mp hf.chain
    cases t with
    | nil =>
      have hnil : (s.heap.mem (lastAddr 0 l)).nextOffset = endOfList := htail.2
      rw [hnil, addrFromOffset, endOfList] at hx
      unfold Used at hx
      have hcx := hc (0xffffffff + 8)
      have hcover : cover ⟨8, cfg.areaSize⟩ (0xffffffff + 8) = 0 := by
        refine cover_behind ?_
        have harea := cfg.area_lt
        show 8 + cfg.areaSize ≤ _
        omega
      omega
    | cons r t =>
      obtain ⟨g1, -, -⟩ := chain_cons.mp htail
      have hr8 := (hf.fits r (by simp)).first
      have haddr : addrFromOffset (s.heap.mem (lastAddr 0 l)).nextOffset = r.addr := by
        rw [g1, addrFromOffset, offsetFromAddr]
        omega
      rw [haddr] at hx
      have hmem : r ∈ l ++ r :: t := by simp
      exact (hout _ hx).ne_of_inside hmem (Nat.le_refl _) (Nat.lt_add_of_pos_right (hf.spaced.mem_bounds hmem).2.1) rfl
  refine ⟨lastAddr 0 l, fun m hm => ⟨?_, ?_, ?_⟩⟩
  · have hf' : FreeChain cfg.areaSize ⟨m, s.heap.skip⟩ (l ++ t) := by
      refine hf.congr (hm 0 fun hx => (hout 0 hx).1 rfl) ?_
      intro r hr
      refine hm r.addr fun hx => ?_
      exact (hout r.addr hx).ne_of_inside hr (Nat.le_refl _) (Nat.lt_add_of_pos_right (hf.spaced.mem_bounds hr).2.1) rfl
    exact findPrev_block (s := { s with heap := ⟨m, s.heap.skip⟩ }) hpos hfits hf' hl ht
  · intro size x hx
    have hne : x ≠ p := by
      intro heq
      have hzero := hx.not_covered (hc x)
      have hone : cover ⟨p, alignSize n⟩ x = 1 :=
        cover_inside (Nat.le_of_eq heq.symm) (by rw [heq]; exact Nat.lt_add_of_pos_right hpos)
      omega
    exact insertBlock_of_ne ((hout x hx).ne_lastAddr hf) hne
  · exact fun size x hx => insertBlock_congr (hm _ hlast) (hm _ hnext) hx

theorem freeBlock_frame {p m : Nat} {o : Origin} (h : Inv cfg P s (⟨p, n, o⟩ :: bs)) (hx : Used cfg s bs x)
    (hres : freeBlock cfg s p m = .ok s') : s'.heap.mem x = s.heap.mem x := by
  unfold freeBlock at hres
  cases o with
  | cell =>
    obtain ⟨page, hfind⟩ := find_cell h List.mem_cons_self rfl
    rw [hfind] at hres
    cases hres
    rfl
  | main =>
    obtain ⟨prev, hplace⟩ := giveBack_frame h
    obtain ⟨hprev, hframe, -⟩ := hplace s.heap.mem fun _ _ => rfl
    rw [find_main h List.mem_cons_self rfl] at hres
    dsimp only at hres
    rw [hprev] at hres
    cases hres
    exact hframe _ x hx

theorem allocMain_frame {required : Nat} {r : Chunk × State} (h : Inv cfg P s bs) (hx : Used cfg s bs x)
    (hres : allocMain cfg s required = .ok r) : r.2.heap.mem x = s.heap.mem x := by
  obtain ⟨rs, hf, hc⟩ := h.free
  have hout : Outside ([] ++ rs) x := hx.outside fun a => Nat.le_of_eq (hc a)
  cases allocMain_eq_ok hres with
  | inl hnone => rw [hnone]
  | inr hsome =>
    obtain ⟨p, heap, hloop, hp⟩ := hsome
    rw [hp]
    exact allocLoop_frame (l := []) (t := rs) cfg.area_lt hf hout hloop

/-- The invariant, and the bytes of the blocks `base` are as in `m`. -/
def Framed (cfg : Config) (P : Nat → Prop) (base : List Block) (m : Memory) (held : List Block) (s : State) : Prop :=
  Holds cfg P (held ++ base) s ∧ ∀ b ∈ base, ∀ x, b.Owns x → s.heap.mem x = m x

theorem framed_rules (cfg : Config) (P : Nat → Prop) (base : List Block) (m : Memory) :
    Rules cfg P (Framed cfg P base m) where
  plan := fun held s plan h => ⟨(holds_rules cfg P).plan (held ++ base) s plan h.1, h.2⟩
  free := by
    intro held s b hb h
    have hperm : (held ++ base ++ s.live).Perm (b :: (held ++ base ++ s.live.erase b)) :=
      ((List.perm_cons_erase hb).append_left (held ++ base)).trans List.perm_middle
    have hstart : Inv cfg P { s with live := s.live.erase b } (b :: (held ++ base ++ s.live.erase b)) :=
      (Inv.perm hperm h.1).of_eq rfl rfl rfl
    refine ((holds_rules cfg P).free (held ++ base) s b hb h.1).also ?_
    intro s' hres _ c hc x hx
    have hin : c ∈ held ++ base ++ s.live.erase b := List.mem_append_left _ (List.mem_append_right held hc)
    have hused := used_of_owns hstart (List.mem_cons_of_mem b hin) hx hin
    exact (freeBlock_frame hstart hused hres).trans (h.2 c hc x hx)
  cell := fun held s n p rest hP hn hfree h => ⟨(holds_rules cfg P).cell (held ++ base) s n p rest hP hn hfree h.1, h.2⟩
  main := by
    intro held s n hP hn h
    have hframe : ∀ r, allocMain cfg s (alignSize n) = .ok r → Gives (Holds cfg P) n (held ++ base) r →
        Gives (Framed cfg P base m) n held r := by
      intro r hres hr
      have hsame : ∀ c ∈ base, ∀ x, c.Owns x → r.2.heap.mem x = m x := by
        intro c hc x hx
        have hin : c ∈ held ++ base ++ s.live := List.mem_append_left _ (List.mem_append_right held hc)
        exact (allocMain_frame h.1 (used_of_owns h.1 hin hx hin) hres).trans (h.2 c hc x hx)
      obtain ⟨chunk, s'⟩ := r
      cases chunk with
      | none => exact ⟨hr, hsame⟩
      | some c => exact ⟨hr, hsame⟩
    exact (((holds_rules cfg P).main (held ++ base) s n hP hn h.1).also hframe).mono fun r hr => hr.2
  page := by
    intro held s p o h
    obtain ⟨freeCells, hpush, hpage⟩ := (holds_rules cfg P).page (held ++ base) s p o h.1
    exact ⟨freeCells, hpush, hpage, h.2⟩

end Jmem
end JJS
