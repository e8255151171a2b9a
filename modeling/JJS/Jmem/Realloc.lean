import JJS.Jmem.Copy

/-!
# JJS.Jmem.Realloc

What a reallocation leaves of a block: a new block with the old bytes, or the old block as it was
(`KeepsDataOrBlock`). A request that wraps around in the rounding breaks this, and so does a block of the main heap that
becomes a cell when there is no cell: it is freed all the same. `realloc_keeps_iff` says that nothing else does.
-/

namespace JJS
namespace Jmem

open FreeList Outcome

/-! ## Runs -/

/-- A step with the copies of a reallocation. -/
def stepData (cfg : Config) (s : State) : Op → Except Stop State
  | .realloc ptr newSize plan =>
    match s.live.find? fun b => decide (b.ptr = ptr) with
    | none => .ok s
    | some b =>
      if newSize = 0 then .ok s
      else
        (reallocData cfg { s with live := s.live.erase b, plan := plan } b.ptr b.size newSize).bind fun r =>
          .ok (handOut newSize r)
  | op => step cfg s op

/-- The states that are reached by operations of a kind. -/
inductive Reached (cfg : Config) (allowed : Op → Prop) : State → Prop
  | init : Reached cfg allowed (State.init cfg)
  | step {s s' : State} {op : Op} : Reached cfg allowed s → allowed op → stepData cfg s op = .ok s' →
      Reached cfg allowed s'

variable {cfg : Config} {P : Nat → Prop} {s s' : State} {b : Block} {bs : List Block} {n : Nat} {r : Chunk × State}

/-- The bytes of a block are no part of the free list. -/
theorem Inv.agrees (h : Inv cfg P s (b :: bs)) (ha : Agrees b s s') : Inv cfg P s' (b :: bs) := by
  have hrest := ha.rest
  refine h.write (m := s'.heap.mem) ?_ ?_ ?_ ?_
  · exact fun x hx => ha.mem x fun howns => hx (used_of_owns h List.mem_cons_self howns List.mem_cons_self)
  · rw [← ha.skip]
  · rw [hrest]
  · rw [hrest]

theorem reallocData_holds (hsizes : Sizes cfg P) (hP : P n) (hn : n ≤ alignSize n) (hold : b.size ≤ alignSize b.size)
    (h : Holds cfg P [b] s) (hres : reallocData cfg s b.ptr b.size n = .ok r) : Got cfg P n [] r := by
  have hspec : Ensures (Excused cfg) (reallocBlock cfg s b.ptr b.size n) (Got cfg P n []) :=
    reallocBlock_spec (o := b.origin) hsizes hP h
  have hdata : Delivers b s.heap.mem n (reallocBlock cfg s b.ptr b.size n) r :=
    reallocData_spec (o := b.origin) hsizes hP hn hold h hres
  obtain ⟨chunk, s'⟩ := r
  cases chunk with
  | none =>
    have hplain : reallocBlock cfg s b.ptr b.size n = .ok (none, s') := hdata
    rw [hplain] at hspec
    exact hspec
  | some c =>
    obtain ⟨p', o'⟩ := c
    obtain ⟨s'', hplain, ha, -⟩ := hdata
    rw [hplain] at hspec
    have hinv : Inv cfg P s'' (⟨p', n, o'⟩ :: s''.live) := hspec
    have hlive : s'.live = s''.live := by rw [ha.rest]
    show Inv cfg P s' (⟨p', n, o'⟩ :: s'.live)
    rw [hlive]
    exact hinv.agrees ha

/-- Sizes that are positive and do not wrap around. -/
abbrev Proper (n : Nat) : Prop := 0 < n ∧ NoWrap n

theorem reached_holds (h : Reached cfg (Op.Asks NoWrap) s) : Inv cfg Proper s s.live := by
  induction h with
  | init => exact inv_init cfg Proper
  | @step s s' op hreach hop hstep ih =>
    have hsizes := sizes_noWrap cfg
    have hplain : ∀ op : Op, op.Asks Proper → Jmem.step cfg s op = .ok s' → Inv cfg Proper s' s'.live := by
      intro op hop hstep
      have hspec := step_spec hsizes op hop ih
      rw [hstep] at hspec
      exact hspec
    cases op with
    | alloc fatal size plan => exact hplain (.alloc fatal size plan) (fun hne => ⟨Nat.pos_of_ne_zero hne, hop hne⟩) hstep
    | free ptr => exact hplain (.free ptr) trivial hstep
    | collect ptrs => exact hplain (.collect ptrs) trivial hstep
    | write data => exact hplain (.write data) trivial hstep
    | realloc ptr newSize plan =>
      unfold stepData at hstep
      dsimp only at hstep
      cases hfind : s.live.find? fun b => decide (b.ptr = ptr) with
      | none =>
        rw [hfind] at hstep
        cases hstep
        exact ih
      | some b =>
        rw [hfind] at hstep
        dsimp only at hstep
        by_cases hn : newSize = 0
        · rw [if_pos hn] at hstep
          cases hstep
          exact ih
        · rw [if_neg hn] at hstep
          have hb := List.mem_of_find?_eq_some hfind
          have hstart : Holds cfg Proper [b] { s with live := s.live.erase b, plan := plan } :=
            (Inv.perm (List.perm_cons_erase hb) ih).of_eq rfl rfl rfl
          cases hres : reallocData cfg { s with live := s.live.erase b, plan := plan } b.ptr b.size newSize with
          | error e =>
            rw [hres] at hstep
            cases hstep
          | ok r =>
            rw [hres] at hstep
            have hgot := reallocData_holds hsizes ⟨Nat.pos_of_ne_zero hn, hop hn⟩ (le_alignSize (hop hn))
              (le_alignSize (ih.sizes b hb).2) hstart hres
            cases hstep
            exact handOut_spec hgot

/-! ## Blocks in use -/

/-- The bytes of the block are as many as were asked for, and they are not free and not in anything else. -/
structure InUse (cfg : Config) (s : State) (b : Block) : Prop where
  room : b.size ≤ b.room
  area : 8 ≤ b.ptr ∧ b.ptr + b.size ≤ 8 + cfg.areaSize
  notFree : ∀ rs, FreeChain cfg.areaSize s.heap rs → ∀ r ∈ rs, r.Disjoint ⟨b.ptr, b.size⟩
  apart : ∀ r ∈ pieces s, Region.Disjoint ⟨b.ptr, b.size⟩ r

/-- The memory of the process. The links of the free cells and the headers of the pages are there too. -/
def Realizes (s : State) (m : Memory) : Prop :=
  ∀ x, (∀ c ∈ s.freeCells, ¬ (c ≤ x ∧ x < c + cellSize)) →
    (∀ p ∈ s.pages, ¬ (p.addr ≤ x ∧ x < p.addr + pageHeaderSize)) → m x = s.heap.mem x

def SameBytes (s s' : State) (p p' len : Nat) : Prop :=
  ∀ m m', Realizes s m → Realizes s' m' → ∀ i, i < len → byteAt m' (p' + i) = byteAt m (p + i)

/-- A reallocation of `b` to `n` bytes returned a block with the bytes of `b`, or null, and then `b` is as before. -/
def KeepsDataOrBlock (cfg : Config) (s : State) (b : Block) (n : Nat) : Chunk × State → Prop
  | (some (p, o), s') => InUse cfg s' ⟨p, n, o⟩ ∧ SameBytes s s' b.ptr p (min b.size n)
  | (none, s') => InUse cfg s' b ∧ SameBytes s s' b.ptr b.ptr b.size

/-- The headers determine the free list. -/
theorem chain_unique {m : Memory} {rs ts : List Region} {p : Nat} (harea : cfg.areaSize + 8 < 2 ^ 32)
    (hrs : ∀ r ∈ rs, Fits cfg.areaSize r ∧ 0 < r.size) (hts : ∀ r ∈ ts, Fits cfg.areaSize r ∧ 0 < r.size)
    (h : Chain m p rs) (h' : Chain m p ts) : rs = ts := by
  have hend : ∀ r : Region, Fits cfg.areaSize r ∧ 0 < r.size → offsetFromAddr r.addr ≠ endOfList := by
    intro r hr
    have hlast := hr.1.last
    have hpos := hr.2
    simp only [Region.stop] at hlast
    unfold offsetFromAddr endOfList
    omega
  induction rs generalizing p ts with
  | nil =>
    cases ts with
    | nil => rfl
    | cons t ts =>
      have hnil : (m p).nextOffset = endOfList := h.2
      exact absurd ((chain_cons.mp h').1.symm.trans hnil) (hend t (hts t List.mem_cons_self))
  | cons r rs ih =>
    obtain ⟨g1, g2, g3⟩ := chain_cons.mp h
    cases ts with
    | nil =>
      have hnil : (m p).nextOffset = endOfList := h'.2
      exact absurd (g1.symm.trans hnil) (hend r (hrs r List.mem_cons_self))
    | cons t ts =>
      obtain ⟨f1, f2, f3⟩ := chain_cons.mp h'
      have hr8 := (hrs r List.mem_cons_self).1.first
      have ht8 := (hts t List.mem_cons_self).1.first
      have haddr : r.addr = t.addr := by
        rw [f1] at g1
        unfold offsetFromAddr at g1
        omega
      have hhead : r = t := by
        obtain ⟨a, u⟩ := r
        obtain ⟨a', u'⟩ := t
        have ha : a = a' := haddr
        subst ha
        exact congrArg (Region.mk a) (g2.symm.trans f2)
      subst hhead
      rw [ih (fun q hq => hrs q (List.mem_cons_of_mem _ hq)) (fun q hq => hts q (List.mem_cons_of_mem _ hq)) g3 f3]

theorem freeChain_unique {h : Heap} {rs ts : List Region} (hf : FreeChain cfg.areaSize h rs)
    (hf' : FreeChain cfg.areaSize h ts) : rs = ts :=
  chain_unique cfg.area_lt (fun r hr => ⟨hf.fits r hr, (hf.spaced.mem_bounds hr).2.1⟩)
    (fun r hr => ⟨hf'.fits r hr, (hf'.spaced.mem_bounds hr).2.1⟩) hf.chain hf'.chain

theorem Inv.inUse (h : Inv cfg Proper s (b :: s.live)) : InUse cfg s b := by
  obtain ⟨hpos, hwrap⟩ := h.sizes b List.mem_cons_self
  have hroom : b.size ≤ b.room := by
    obtain ⟨p, n, o⟩ := b
    cases o with
    | main => exact le_alignSize hwrap
    | cell => exact Nat.le_trans (le_alignSize hwrap) (h.cell ⟨p, n, .cell⟩ List.mem_cons_self rfl)
  have hused : ∀ x, b.ptr ≤ x → x < b.ptr + b.size → Used cfg s (b :: s.live) x := by
    intro x h1 h2
    exact used_of_owns h List.mem_cons_self ⟨h1, Nat.lt_of_lt_of_le h2 (Nat.add_le_add_left hroom _)⟩ List.mem_cons_self
  obtain ⟨rs, hf, hc⟩ := h.free
  have hin : ∀ x, Used cfg s (b :: s.live) x → 8 ≤ x ∧ x < 8 + cfg.areaSize := by
    intro x hx
    have hcx := hc x
    unfold Used at hx
    have hpos : 0 < cover ⟨8, cfg.areaSize⟩ x := by omega
    exact cover_pos_iff.mp hpos
  refine ⟨hroom, ⟨(hin _ (hused b.ptr (Nat.le_refl _) (by omega))).1, ?_⟩, ?_, ?_⟩
  · have hlast := (hin _ (hused (b.ptr + b.size - 1) (by omega) (by omega))).2
    omega
  · intro rs' hf' r hr
    rw [freeChain_unique hf' hf] at hr
    refine disjoint_of_cover (hf.spaced.mem_bounds hr).2.1 hpos ?_
    intro a
    by_cases ha : b.ptr ≤ a ∧ a < b.ptr + b.size
    · have hone : cover ⟨b.ptr, b.size⟩ a = 1 := cover_inside ha.1 ha.2
      have hout := (hused a ha.1 ha.2).outside fun a => Nat.le_of_eq (hc a)
      have hle := cover_le_coverage hr a
      rw [hout.2] at hle
      omega
    · have hzero : cover ⟨b.ptr, b.size⟩ a = 0 := if_neg ha
      have hle : cover r a ≤ 1 := by
        unfold cover
        split <;> omega
      omega
  · have hall : Inv cfg Proper { s with live := b :: s.live } (b :: s.live) := h.of_eq rfl rfl rfl
    have hle := coverage_pieces_le (s := { s with live := b :: s.live }) (fun c hc => (hall.sizes c hc).2) hall
    have hpieces := pairwise_disjoint
      (fun r hr => pieces_pos (s := { s with live := b :: s.live }) (fun c hc => (hall.sizes c hc).1) hr) hle
    exact fun r hr => List.rel_of_pairwise_cons hpieces hr

/-- The bytes of a block in use are the ones of the memory. -/
theorem InUse.byteAt (h : InUse cfg s b) (h8 : 8 ∣ b.ptr) {m : Memory} (hm : Realizes s m) {i : Nat} (hi : i < b.size) :
    byteAt m (b.ptr + i) = Jmem.byteAt s.heap.mem (b.ptr + i) := by
  have hx : b.ptr ≤ (b.ptr + i) / 8 * 8 ∧ (b.ptr + i) / 8 * 8 < b.ptr + b.size := by omega
  have hapart : ∀ r ∈ pieces s, ¬ (r.addr ≤ (b.ptr + i) / 8 * 8 ∧ (b.ptr + i) / 8 * 8 < r.stop) := by
    intro r hr hin
    cases h.apart r hr with
    | inl hbefore =>
      have hle : b.ptr + b.size ≤ r.addr := hbefore
      omega
    | inr hbehind =>
      have hle : r.stop ≤ b.ptr := hbehind
      omega
  refine byteAt_congr (hm _ ?_ ?_)
  · intro c hc
    exact hapart ⟨c, cellSize⟩ (List.mem_append_left _ (List.mem_append_right _ (List.mem_map.mpr ⟨c, hc, rfl⟩)))
  · intro p hp
    exact hapart ⟨p.addr, pageHeaderSize⟩ (List.mem_append_right _ (List.mem_map.mpr ⟨p, hp, rfl⟩))

/-! ## Blocks that are lost -/

/-- There is a cell for a block of the main heap that becomes as small as a cell. -/
def CellFound (cfg : Config) (s : State) (b : Block) (n : Nat) : Prop :=
  b.origin = .main → alignSize n ≤ cellSize → ∀ s', heapAlloc cfg allocDepth s (alignSize n) ≠ .ok (none, s')

theorem freeBlock_main {p m : Nat} (h : Inv cfg P s (⟨p, n, .main⟩ :: bs)) :
    ∃ prev, freeBlock cfg s p m = .ok (s.shrink cfg (insertBlock s.heap p prev (alignSize m)) (alignSize m)) := by
  have hfind : cellocatorFind s.pages p = none := find_main h List.mem_cons_self rfl
  obtain ⟨prev, hprev, -⟩ := giveBack h
  refine ⟨prev, ?_⟩
  rw [freeBlock, hfind]
  dsimp only
  rw [hprev]
  rfl

/-- The bytes of a block that was freed are free. -/
theorem freed_not_inUse {p m : Nat} (hm : alignSize m = alignSize n) (hn : 0 < n)
    (h : Inv cfg P s (⟨p, n, .main⟩ :: s.live)) (hres : freeBlock cfg s p m = .ok s') : ¬ InUse cfg s' ⟨p, n, .main⟩ := by
  intro huse
  have hspec := freeBlock_spec hm h
  obtain ⟨prev, hplain⟩ := freeBlock_main (m := m) h
  have hpages : s'.pages = s.pages := by
    rw [hplain] at hres
    cases hres
    rfl
  rw [hres] at hspec
  have hinv : Inv cfg P s' s.live := hspec.1
  obtain ⟨rs, -, hc⟩ := h.free
  obtain ⟨rs', hf', hc'⟩ := hinv.free
  have hsize := h.main_head.2
  have hone : cover ⟨p, alignSize n⟩ p = 1 :=
    cover_inside (Nat.le_refl p) (Nat.lt_add_of_pos_right (Nat.zero_lt_of_lt hsize))
  have hp := hc p
  have hp' := hc' p
  rw [mainRegions_main, coverage_cons, hone] at hp
  rw [hpages] at hp'
  have hfree : 0 < coverage rs' p := by omega
  obtain ⟨r, hr, h1, h2⟩ := exists_of_coverage hfree
  cases huse.notFree rs' hf' r hr with
  | inl hbefore =>
    have hle : r.stop ≤ p := hbefore
    omega
  | inr hbehind =>
    have hle : p + n ≤ r.addr := hbehind
    omega

/-- Null is returned when there is no cell, and then the block is lost. -/
theorem reallocData_lost {s1 : State} (h : Holds cfg P [b] s) (hsizes : Sizes cfg P) (hP : P (alignSize n))
    (hpos : 0 < b.size) (ho : b.origin = .main) (hcell : alignSize n ≤ cellSize)
    (hlost : heapAlloc cfg allocDepth s (alignSize n) = .ok (none, s1))
    (hres : reallocData cfg s b.ptr b.size n = .ok r) : r.1 = none ∧ ¬ InUse cfg r.2 b := by
  obtain ⟨p, old, o⟩ := b
  have ho' : o = .main := ho
  subst ho'
  have hinv : Inv cfg P s (⟨p, old, .main⟩ :: s.live) := h
  have hsize := hinv.main_head.2
  have hfind : cellocatorFind s.pages p = none := find_main hinv List.mem_cons_self rfl
  have hres' : reallocData cfg s p old n = .ok r := hres
  unfold reallocData at hres'
  dsimp only at hres'
  rw [hfind] at hres'
  dsimp only at hres'
  rw [if_neg (by omega), if_pos (by omega), shrinkData, if_pos hcell, hlost] at hres'
  have hspec := heapAlloc_spec hsizes allocDepth (alignSize n) hP [⟨p, old, .main⟩] s (Or.inr (Or.inl (Nat.le_refl 2))) h
  rw [hlost] at hspec
  have hinv1 : Inv cfg P s1 (⟨p, old, .main⟩ :: s1.live) := hspec
  replace hres' : ((freeBlock cfg s1 p (alignSize old)).bind fun s => .ok ((none : Chunk), s)) = .ok r := hres'
  cases hfree : freeBlock cfg s1 p (alignSize old) with
  | error e =>
    rw [hfree] at hres'
    cases hres'
  | ok s2 =>
    rw [hfree] at hres'
    cases hres'
    exact ⟨rfl, freed_not_inUse (alignSize_idem old) hpos hinv1 hfree⟩

theorem moveData_ne_none {p old : Nat} (hn : n ≠ 0) (hres : moveData cfg s p old n = .ok r) : r.1 ≠ none := by
  unfold moveData at hres
  dsimp only at hres
  cases halloc : allocBlockInternal cfg { s with allocatedSize := s.allocatedSize - alignSize old } n with
  | error e =>
    rw [halloc] at hres
    cases hres
  | ok q =>
    obtain ⟨chunk, s1⟩ := q
    rw [halloc] at hres
    replace hres : ((bounded (findPrev s1.heap p)).bind fun prev => .ok (chunk, { s1 with
        heap := insertBlock (s1.heap.copyTo chunk p old) p prev (alignSize old) })) = .ok r := hres
    cases hprev : findPrev s1.heap p with
    | none =>
      rw [hprev] at hres
      cases hres
    | some prev =>
      rw [hprev] at hres
      cases hres
      exact allocBlockInternal_ne_none hn halloc

theorem growData_ne_none {p old : Nat} (hn : n ≠ 0) (hres : growData cfg s p old n = .ok r) : r.1 ≠ none := by
  unfold growData at hres
  dsimp only at hres
  generalize (if (s.allocatedSize + (alignSize n - alignSize old)) % 2 ^ 64 ≥ s.limit then
    freeUnusedMemory cfg s .low else .ok s) = first at hres
  cases first with
  | error e => cases hres
  | ok s1 =>
    replace hres : (bounded (extendBlock s1.heap p (alignSize old) (alignSize n - alignSize old))).bind _ = .ok r := hres
    cases hextend : extendBlock s1.heap p (alignSize old) (alignSize n - alignSize old) with
    | none =>
      rw [hextend] at hres
      cases hres
    | some extended =>
      rw [hextend] at hres
      cases extended with
      | none => exact moveData_ne_none hn hres
      | some c =>
        cases hres
        exact Option.some_ne_none _

/-- There is no other way to null. -/
theorem reallocData_none (h : Holds cfg P [b] s) (hn : 0 < n) (hres : reallocData cfg s b.ptr b.size n = .ok r)
    (hnone : r.1 = none) : ¬ CellFound cfg s b n := by
  obtain ⟨p, old, o⟩ := b
  have hinv : Inv cfg P s (⟨p, old, o⟩ :: s.live) := h
  have hres' : reallocData cfg s p old n = .ok r := hres
  unfold reallocData at hres'
  dsimp only at hres'
  cases o with
  | cell =>
    obtain ⟨page, hfind⟩ := find_cell hinv List.mem_cons_self rfl
    have hfind' : cellocatorFind s.pages p = some page := hfind
    rw [hfind'] at hres'
    dsimp only at hres'
    by_cases hcell : alignSize n ≤ cellSize
    · rw [if_pos hcell] at hres'
      cases hres'
      cases hnone
    · rw [if_neg hcell] at hres'
      cases halloc : allocBlockInternal cfg s (alignSize n) with
      | error e =>
        rw [halloc] at hres'
        cases hres'
      | ok q =>
        obtain ⟨chunk, s1⟩ := q
        rw [halloc] at hres'
        cases chunk with
        | none =>
          have hne : alignSize n ≠ 0 := by
            intro hzero
            rw [hzero] at hcell
            exact hcell (Nat.zero_le _)
          exact absurd rfl (allocBlockInternal_ne_none hne halloc)
        | some c =>
          cases hres'
          cases hnone
  | main =>
    have hfind : cellocatorFind s.pages p = none := find_main hinv List.mem_cons_self rfl
    rw [hfind] at hres'
    dsimp only at hres'
    by_cases heq : alignSize old = alignSize n
    · rw [if_pos heq] at hres'
      cases hres'
      cases hnone
    · rw [if_neg heq] at hres'
      by_cases hlt : alignSize n < alignSize old
      · rw [if_pos hlt, shrinkData] at hres'
        by_cases hcell : alignSize n ≤ cellSize
        · rw [if_pos hcell] at hres'
          cases halloc : heapAlloc cfg allocDepth s (alignSize n) with
          | error e =>
            rw [halloc] at hres'
            cases hres'
          | ok q =>
            obtain ⟨chunk, s1⟩ := q
            rw [halloc] at hres'
            replace hres' : ((freeBlock cfg { s1 with heap := s1.heap.copyTo chunk p (alignSize n) } p (alignSize old)).bind
                fun s => .ok (chunk, s)) = .ok r := hres'
            cases hfree : freeBlock cfg { s1 with heap := s1.heap.copyTo chunk p (alignSize n) } p (alignSize old) with
            | error e =>
              rw [hfree] at hres'
              cases hres'
            | ok s2 =>
              rw [hfree] at hres'
              cases hres'
              have hchunk : chunk = none := hnone
              rw [hchunk] at halloc
              exact fun hfound => hfound rfl hcell s1 halloc
        · rw [if_neg hcell] at hres'
          cases hprev : findPrev s.heap p with
          | none =>
            rw [hprev] at hres'
            cases hres'
          | some prev =>
            rw [hprev] at hres'
            cases hres'
            cases hnone
      · rw [if_neg hlt] at hres'
        exact absurd hnone (growData_ne_none (Nat.ne_of_gt hn) hres')

/-- With null the block is lost. -/
theorem reallocData_null (h : Holds cfg (fun _ => True) [b] s) (hpos : 0 < b.size) (hn : 0 < n)
    (hres : reallocData cfg s b.ptr b.size n = .ok r) (hnone : r.1 = none) : ¬ InUse cfg r.2 b := by
  intro huse
  refine reallocData_none h hn hres hnone ?_
  intro ho hcell s1 hlost
  exact (reallocData_lost h ⟨trivial, fun _ _ => trivial⟩ trivial hpos ho hcell hlost hres).2 huse

/-! ## The exact condition -/

theorem reallocData_keeps {p : Nat} {o : Origin} (hn : Proper n) (h : Holds cfg Proper [b] s)
    (hres : reallocData cfg s b.ptr b.size n = .ok (some (p, o), s')) :
    InUse cfg s' ⟨p, n, o⟩ ∧ SameBytes s s' b.ptr p (min b.size n) := by
  have hinv : Inv cfg Proper s (b :: s.live) := h
  have hsizes := sizes_noWrap cfg
  have hwrap := le_alignSize hn.2
  have hold := le_alignSize (hinv.sizes b List.mem_cons_self).2
  have hgot : Inv cfg Proper s' (⟨p, n, o⟩ :: s'.live) := reallocData_holds hsizes hn hwrap hold h hres
  have hdata : Delivers b s.heap.mem n (reallocBlock cfg s b.ptr b.size n) (some (p, o), s') :=
    reallocData_spec (o := b.origin) hsizes hn hwrap hold h hres
  obtain ⟨s'', -, -, hbytes⟩ := hdata
  refine ⟨hgot.inUse, ?_⟩
  intro m m' hm hm' i hi
  have hi1 : i < b.size := Nat.lt_of_lt_of_le hi (Nat.min_le_left _ _)
  have hi2 : i < n := Nat.lt_of_lt_of_le hi (Nat.min_le_right _ _)
  calc byteAt m' (p + i)
      = byteAt s'.heap.mem (p + i) :=
        hgot.inUse.byteAt (hgot.aligned (b := ⟨p, n, o⟩) List.mem_cons_self) hm' hi2
    _ = byteAt s.heap.mem (b.ptr + i) := hbytes i hi
    _ = byteAt m (b.ptr + i) := (hinv.inUse.byteAt (hinv.aligned List.mem_cons_self) hm hi1).symm

/-- A request that wraps around is bigger than any block. -/
theorem not_room {p : Nat} {o : Origin} (hn : ¬ NoWrap n) : ¬ n ≤ Block.room ⟨p, n, o⟩ := by
  unfold NoWrap at hn
  cases o with
  | main =>
    show ¬ n ≤ alignSize n
    unfold alignSize
    omega
  | cell =>
    show ¬ n ≤ 32
    omega

theorem realloc_keeps_iff {plan : List (List Nat)} (h : Reached cfg (Op.Asks NoWrap) s) (hb : b ∈ s.live) (hn : 0 < n)
    (hres : reallocData cfg { s with live := s.live.erase b, plan := plan } b.ptr b.size n = .ok r) :
    KeepsDataOrBlock cfg { s with live := s.live.erase b, plan := plan } b n r ↔
      NoWrap n ∧ CellFound cfg { s with live := s.live.erase b, plan := plan } b n := by
  have hlive := reached_holds h
  have hpos := (hlive.sizes b hb).1
  have hstart : Holds cfg Proper [b] { s with live := s.live.erase b, plan := plan } :=
    (Inv.perm (List.perm_cons_erase hb) hlive).of_eq rfl rfl rfl
  have hany : Holds cfg (fun _ => True) [b] { s with live := s.live.erase b, plan := plan } :=
    ⟨hstart.free, hstart.pages, hstart.cells, hstart.main, hstart.cell, fun _ _ => trivial⟩
  have hsizes : Sizes cfg fun _ => True := ⟨trivial, fun _ _ => trivial⟩
  constructor
  · intro hkeeps
    obtain ⟨chunk, s'⟩ := r
    cases chunk with
    | none => exact absurd hkeeps.1 (reallocData_null hany hpos hn hres rfl)
    | some c =>
      obtain ⟨p, o⟩ := c
      refine ⟨?_, ?_⟩
      · by_contra hwrap
        exact not_room hwrap hkeeps.1.room
      · intro ho hcell s1 hlost
        cases (reallocData_lost hany hsizes trivial hpos ho hcell hlost hres).1
  · intro hcond
    obtain ⟨hwrap, hfound⟩ := hcond
    obtain ⟨chunk, s'⟩ := r
    cases chunk with
    | none => exact absurd hfound (reallocData_none hany hn hres rfl)
    | some c =>
      obtain ⟨p, o⟩ := c
      exact reallocData_keeps ⟨hn, hwrap⟩ hstart hres

/-- A block of 100 bytes is extended at its end. -/
theorem realloc_keeps_extended :
    ∃ (s : State) (r : Chunk × State), s.live = [⟨8, 100, .main⟩] ∧ reallocData smallHeap { s with live := [], plan := [] } 8 100 200 = .ok r ∧
      KeepsDataOrBlock smallHeap { s with live := [], plan := [] } ⟨8, 100, .main⟩ 200 r := by
  have hlive : ((stepData smallHeap (State.init smallHeap) (.alloc true 100 [])).toOption.map State.live) =
      some [⟨8, 100, .main⟩] := by decide +kernel
  have hmoved : ((stepData smallHeap (State.init smallHeap) (.alloc true 100 [])).bind fun s =>
      reallocData smallHeap { s with live := [], plan := [] } 8 100 200).toOption.map Prod.fst =
        some (some (8, Origin.main)) := by decide +kernel
  cases hstep : stepData smallHeap (State.init smallHeap) (.alloc true 100 []) with
  | error e => rw [hstep] at hlive; cases hlive
  | ok s =>
    rw [hstep] at hlive hmoved
    have hblocks : s.live = [⟨8, 100, .main⟩] := Option.some.inj hlive
    have hasks : (Op.alloc true 100 []).Asks NoWrap := fun _ => by unfold NoWrap; omega
    have hreach : Reached smallHeap (Op.Asks NoWrap) s := Reached.step Reached.init hasks hstep
    replace hmoved : (reallocData smallHeap { s with live := [], plan := [] } 8 100 200).toOption.map Prod.fst =
        some (some (8, Origin.main)) := hmoved
    cases hres : reallocData smallHeap { s with live := [], plan := [] } 8 100 200 with
    | error e => rw [hres] at hmoved; cases hmoved
    | ok r =>
      have herase : s.live.erase ⟨8, 100, .main⟩ = [] := by rw [hblocks]; rfl
      have hkeeps := @realloc_keeps_iff smallHeap s ⟨8, 100, .main⟩ 200 r [] hreach
        (by rw [hblocks]; exact List.mem_cons_self) (by decide) (by rw [herase]; exact hres)
      rw [herase] at hkeeps
      refine ⟨s, r, hblocks, hres, hkeeps.mpr ⟨by unfold NoWrap; omega, ?_⟩⟩
      exact fun _ hcell => absurd hcell (by decide)

/-- A block of 1000 bytes becomes one of 8, and there is no room for a page of cells. -/
theorem block_lost :
    ¬ ∀ (cfg : Config) (s : State) (b : Block) (n : Nat) (plan : List (List Nat)) (r : Chunk × State),
      Reached cfg (Op.Asks NoWrap) s → b ∈ s.live → 0 < n →
        reallocData cfg { s with live := s.live.erase b, plan := plan } b.ptr b.size n = .ok r →
          KeepsDataOrBlock cfg { s with live := s.live.erase b, plan := plan } b n r := by
  intro hall
  have hlive : ((stepData smallHeap (State.init smallHeap) (.alloc true 1000 [])).toOption.map State.live) =
      some [⟨8, 1000, .main⟩] := by decide +kernel
  have hlost : ((stepData smallHeap (State.init smallHeap) (.alloc true 1000 [])).bind fun s =>
      reallocData smallHeap { s with live := [], plan := [] } 8 1000 8).toOption.map Prod.fst = some none := by
    decide +kernel
  cases hstep : stepData smallHeap (State.init smallHeap) (.alloc true 1000 []) with
  | error e => rw [hstep] at hlive; cases hlive
  | ok s =>
    rw [hstep] at hlive hlost
    have hblocks : s.live = [⟨8, 1000, .main⟩] := Option.some.inj hlive
    have hasks : (Op.alloc true 1000 []).Asks NoWrap := fun _ => by unfold NoWrap; omega
    have hreach : Reached smallHeap (Op.Asks NoWrap) s := Reached.step Reached.init hasks hstep
    replace hlost : (reallocData smallHeap { s with live := [], plan := [] } 8 1000 8).toOption.map Prod.fst =
        some none := hlost
    cases hres : reallocData smallHeap { s with live := [], plan := [] } 8 1000 8 with
    | error e => rw [hres] at hlost; cases hlost
    | ok r =>
      rw [hres] at hlost
      have hnone : r.1 = none := Option.some.inj hlost
      have hmem : (⟨8, 1000, .main⟩ : Block) ∈ s.live := by rw [hblocks]; exact List.mem_cons_self
      have herase : s.live.erase ⟨8, 1000, .main⟩ = [] := by rw [hblocks]; rfl
      have hkeeps := hall smallHeap s ⟨8, 1000, .main⟩ 8 [] r hreach hmem (by decide) (by rw [herase]; exact hres)
      have hinv := reached_holds hreach
      have hstart : Inv smallHeap Proper { s with live := [], plan := [] } [⟨8, 1000, .main⟩] := by
        rw [hblocks] at hinv
        exact hinv.of_eq rfl rfl rfl
      have hany : Holds smallHeap (fun _ => True) [⟨8, 1000, .main⟩] { s with live := [], plan := [] } :=
        ⟨hstart.free, hstart.pages, hstart.cells, hstart.main, hstart.cell, fun _ _ => trivial⟩
      have hfreed := reallocData_null (b := ⟨8, 1000, .main⟩) hany (by decide) (by decide) hres hnone
      obtain ⟨chunk, s'⟩ := r
      have hchunk : chunk = none := hnone
      rw [hchunk] at hkeeps
      exact hfreed hkeeps.1

end Jmem
end JJS
