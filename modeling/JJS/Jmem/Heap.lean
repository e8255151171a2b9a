import JJS.Lib.FreeList

/-!
# JJS.Jmem.Heap

The free list of the main heap, `jmem-heap.c`: the search for a region in `jmem_heap_alloc`, `jmem_heap_find_prev`
and `jmem_heap_insert_block`, over a memory of headers. An address counts from `heap_p->first`, which is at 0; the
area begins at 8, so an address is an offset plus 8.

`Chain` says that the headers spell a list of regions, `FreeChain` that they spell what a free list has to be. Each
operation is described by what it does to the coverage of the list: `allocLoop_spec`, `insertBlock_spec` and
`extendBlock_spec`.
-/

namespace JJS
namespace Jmem

open FreeList

/-- `jmem_heap_free_t`. -/
structure Header where
  size : Nat
  nextOffset : Nat

/-- The headers at the addresses of the heap. -/
abbrev Memory := Nat → Header

/-- `JMEM_HEAP_END_OF_LIST`. -/
def endOfList : Nat := 0xffffffff

/-- `JMEM_HEAP_GET_OFFSET_FROM_ADDR`. -/
def offsetFromAddr (p : Nat) : Nat := p - 8

/-- `JMEM_HEAP_GET_ADDR_FROM_OFFSET`. -/
def addrFromOffset (u : Nat) : Nat := u + 8

def setSize (m : Memory) (p size : Nat) : Memory := fun x => if x = p then { m x with size := size } else m x

def setNext (m : Memory) (p nextOffset : Nat) : Memory := fun x => if x = p then { m x with nextOffset := nextOffset } else m x

/-- `jmem_heap_get_region_end`. -/
def regionEnd (m : Memory) (p : Nat) : Nat := p + (m p).size

/-- The memory of the free list, and `jmem_heap_list_skip_p`. -/
structure Heap where
  mem : Memory
  skip : Nat

/-- `jmem_heap_init`: one region. -/
def Heap.init (areaSize : Nat) : Heap where
  mem := setNext (setSize (setNext (setSize (fun _ => ⟨0, 0⟩) 8 areaSize) 8 endOfList) 0 0) 0 (offsetFromAddr 8)
  skip := 0

/-! ## The operations -/

/-- The part of the slow path of `jmem_heap_alloc` for a region that is big enough: the region loses its first
`required` bytes. `jmem_heap_realloc_block` does the same when it extends a block at its end. -/
def takeMemory (m : Memory) (prev current required : Nat) : Memory :=
  if (m current).size > required then
    let remaining := current + required
    setNext (setNext (setSize m remaining ((m current).size - required)) remaining (m current).nextOffset) prev
      (offsetFromAddr remaining)
  else setNext m prev (m current).nextOffset

/-- The loop of the slow path of `jmem_heap_alloc`. The outer null is the bound on the loop. -/
def allocLoop (h : Heap) (required : Nat) : Nat → Nat → Nat → Option (Option (Nat × Heap))
  | 0, _, _ => none
  | fuel + 1, prev, currentOffset =>
    if currentOffset = endOfList then some none
    else
      let current := addrFromOffset currentOffset
      if (h.mem current).size ≥ required then
        some (some (current, ⟨takeMemory h.mem prev current required, prev⟩))
      else allocLoop h required fuel current (h.mem current).nextOffset

/-- The loop of `jmem_heap_find_prev`. The null case is the bound on the loop. -/
def findPrevLoop (m : Memory) (blockOffset : Nat) : Nat → Nat → Option Nat
  | 0, _ => none
  | fuel + 1, prev =>
    if (m prev).nextOffset < blockOffset then findPrevLoop m blockOffset fuel (addrFromOffset (m prev).nextOffset)
    else some prev

/-- `jmem_heap_find_prev`. -/
def findPrev (h : Heap) (block : Nat) : Option Nat :=
  findPrevLoop h.mem (offsetFromAddr block) (block + 1) (if block > h.skip then h.skip else 0)

/-- The second half of `jmem_heap_insert_block`: the block takes in the region behind it, or points to it. -/
def joinNext (m : Memory) (block next : Nat) : Memory :=
  if regionEnd m block = next then
    setNext (setSize m block ((m block).size + (m next).size)) block (m next).nextOffset
  else setNext m block (offsetFromAddr next)

/-- `jmem_heap_insert_block`. -/
def insertBlock (h : Heap) (block prev size : Nat) : Heap :=
  let next := addrFromOffset (h.mem prev).nextOffset
  if regionEnd h.mem prev = block then
    ⟨joinNext (setSize h.mem prev ((h.mem prev).size + size)) prev next, prev⟩
  else ⟨joinNext (setNext (setSize h.mem block size) prev (offsetFromAddr block)) block next, prev⟩

/-- The two ways in which `jmem_heap_realloc_block` extends a block in place: it takes the front of the region behind
the block, or the back of the region before it. The inner null says that neither is big enough. -/
def extendBlock (h : Heap) (block alignedOldSize required : Nat) : Option (Option (Nat × Heap)) :=
  (findPrev h block).bind fun prev =>
    let next := addrFromOffset (h.mem prev).nextOffset
    if block + alignedOldSize = next then
      if required ≤ (h.mem next).size then some (some (block, ⟨takeMemory h.mem prev next required, prev⟩))
      else some none
    else if regionEnd h.mem prev = block then
      if required ≤ (h.mem prev).size then
        if required = (h.mem prev).size then
          (findPrev h prev).bind fun prev' =>
            some (some (block - required, ⟨setNext h.mem prev' (offsetFromAddr next), prev'⟩))
        else some (some (block - required, ⟨setSize h.mem prev ((h.mem prev).size - required), prev⟩))
      else some none
    else some none

/-! ## Memory -/

section

variable (m : Memory) (p v : Nat) {x : Nat}

@[simp] theorem setSize_size_self : (setSize m p v p).size = v := by simp [setSize]

@[simp] theorem setSize_next (x : Nat) : (setSize m p v x).nextOffset = (m x).nextOffset := by
  unfold setSize
  split <;> rfl

@[simp] theorem setNext_next_self : (setNext m p v p).nextOffset = v := by simp [setNext]

@[simp] theorem setNext_size (x : Nat) : (setNext m p v x).size = (m x).size := by
  unfold setNext
  split <;> rfl

theorem setSize_of_ne (h : x ≠ p) : setSize m p v x = m x := if_neg h

theorem setNext_of_ne (h : x ≠ p) : setNext m p v x = m x := if_neg h

end

/-! ## Chains -/

/-- The headers lead from `p` through the regions. -/
def Linked (m : Memory) : Nat → List Region → Prop
  | _, [] => True
  | p, r :: rs => (m p).nextOffset = offsetFromAddr r.addr ∧ (m r.addr).size = r.size ∧ Linked m r.addr rs

/-- The same, and the list ends there. -/
def Chain (m : Memory) (p : Nat) (rs : List Region) : Prop :=
  Linked m p rs ∧ (m (lastAddr p rs)).nextOffset = endOfList

variable {m m' : Memory} {p e : Nat} {l t : List Region}

theorem linked_append : Linked m p (l ++ t) ↔ Linked m p l ∧ Linked m (lastAddr p l) t := by
  induction l generalizing p with
  | nil => simp [Linked, lastAddr]
  | cons r l ih => simp only [List.cons_append, Linked, lastAddr, ih, and_assoc]

theorem chain_append : Chain m p (l ++ t) ↔ Linked m p l ∧ Chain m (lastAddr p l) t := by
  rw [Chain, Chain, linked_append, lastAddr_append, and_assoc]

theorem chain_cons {r : Region} :
    Chain m p (r :: t) ↔ (m p).nextOffset = offsetFromAddr r.addr ∧ (m r.addr).size = r.size ∧ Chain m r.addr t := by
  rw [Chain, Chain]
  simp only [Linked, lastAddr, and_assoc]

/-- The headers in front of the last one may not change, and the size of the last one may not. -/
theorem Linked.congr (hp : p ≤ e) (hs : Spaced e l) (hlt : ∀ x, x < lastAddr p l → m' x = m x)
    (hsize : l ≠ [] → (m' (lastAddr p l)).size = (m (lastAddr p l)).size) (h : Linked m p l) : Linked m' p l := by
  induction l generalizing p e with
  | nil => trivial
  | cons r l ih =>
    obtain ⟨h1, h2, h3⟩ := hs
    obtain ⟨g1, g2, g3⟩ := h
    have hle := (h3.lastAddr_le (Nat.le_add_right r.addr r.size)).1
    simp only [lastAddr] at hlt hsize
    refine ⟨?_, ?_, ?_⟩
    · rw [hlt p (by omega), g1]
    · by_cases hlast : r.addr < lastAddr r.addr l
      · rw [hlt _ hlast, g2]
      · have heq : lastAddr r.addr l = r.addr := by omega
        have := hsize (by simp)
        rw [heq] at this
        rw [this, g2]
    · exact ih (Nat.le_add_right r.addr r.size) h3 hlt (fun _ => hsize (by simp)) g3

/-- A list may hang on another header, when nothing behind `e` changes. -/
theorem Chain.move {p' : Nat} (hs : Spaced e t) (hnext : (m' p').nextOffset = (m p).nextOffset)
    (hgt : ∀ x, e < x → m' x = m x) (h : Chain m p t) : Chain m' p' t := by
  induction t generalizing p p' e with
  | nil =>
    refine ⟨trivial, ?_⟩
    show (m' p').nextOffset = endOfList
    rw [hnext]
    exact h.2
  | cons r t ih =>
    obtain ⟨h1, h2, h3⟩ := hs
    obtain ⟨g1, g2, g3⟩ := chain_cons.mp h
    have hr : m' r.addr = m r.addr := hgt _ h1
    refine chain_cons.mpr ⟨by rw [hnext, g1], by rw [hr, g2], ih h3 (by rw [hr]) ?_ g3⟩
    intro x hx
    have : r.addr ≤ r.stop := Nat.le_add_right _ _
    exact hgt x (by omega)

/-! ## Taking bytes -/

theorem chain_takeFront {r : Region} {n : Nat} (hn : 0 < n) (hs : Spaced e (l ++ r :: t)) (hp : p ≤ e)
    (h : Chain m p (l ++ r :: t)) :
    Chain (takeMemory m (lastAddr p l) r.addr n) p (l ++ (takeFront r n ++ t)) := by
  obtain ⟨hl, hrt⟩ := chain_append.mp h
  obtain ⟨g1, g2, g3⟩ := chain_cons.mp hrt
  obtain ⟨sl, s1, s2, s3⟩ := spaced_append.mp hs
  have hle := sl.lastAddr_le hp
  rw [chain_append]
  unfold takeMemory takeFront
  rw [g2]
  by_cases hlt : n < r.size
  · rw [if_pos hlt, if_pos hlt]
    have hne : r.addr + n ≠ lastAddr p l := by omega
    constructor
    · refine hl.congr hp sl ?_ ?_
      · intro x hx
        rw [setNext_of_ne _ _ _ (by omega), setNext_of_ne _ _ _ (by omega), setSize_of_ne _ _ _ (by omega)]
      · intro _
        rw [setNext_size, setNext_size, setSize_of_ne _ _ _ (by omega)]
    · rw [List.singleton_append, chain_cons]
      refine ⟨by rw [setNext_next_self], ?_, ?_⟩
      · simp
      · refine g3.move (e := r.stop) s3 ?_ ?_
        · rw [setNext_of_ne _ _ _ hne, setNext_next_self]
        · intro x hx
          have : r.addr + n < r.stop := Nat.add_lt_add_left hlt r.addr
          rw [setNext_of_ne _ _ _ (by omega), setNext_of_ne _ _ _ (by omega), setSize_of_ne _ _ _ (by omega)]
  · rw [if_neg (by omega), if_neg hlt]
    constructor
    · refine hl.congr hp sl ?_ ?_
      · intro x hx
        rw [setNext_of_ne _ _ _ (by omega)]
      · intro _
        rw [setNext_size]
    · rw [List.nil_append]
      refine g3.move (e := r.stop) s3 (by rw [setNext_next_self]) ?_
      intro x hx
      have : r.addr ≤ r.stop := Nat.le_add_right _ _
      rw [setNext_of_ne _ _ _ (by omega)]

/-- A region may lose bytes at its end. -/
theorem chain_takeBack {r : Region} {n : Nat} (hs : Spaced e (l ++ r :: t)) (hp : p ≤ e)
    (h : Chain m p (l ++ r :: t)) : Chain (setSize m r.addr n) p (l ++ ⟨r.addr, n⟩ :: t) := by
  obtain ⟨hl, hrt⟩ := chain_append.mp h
  obtain ⟨g1, g2, g3⟩ := chain_cons.mp hrt
  obtain ⟨sl, s1, s2, s3⟩ := spaced_append.mp hs
  have hle := sl.lastAddr_le hp
  refine chain_append.mpr ⟨?_, chain_cons.mpr ⟨?_, ?_, ?_⟩⟩
  · refine hl.congr hp sl ?_ ?_
    · intro x hx
      rw [setSize_of_ne _ _ _ (by omega)]
    · intro _
      rw [setSize_of_ne _ _ _ (by omega)]
  · rw [setSize_next, g1]
  · rw [setSize_size_self]
  · refine g3.move (e := r.stop) s3 (setSize_next _ _ _ _) ?_
    intro x hx
    have : r.addr ≤ r.stop := Nat.le_add_right _ _
    rw [setSize_of_ne _ _ _ (by omega)]

/-! ## Putting a region in -/

/-- The list behind a new region `r` hangs on `p` in `m`, and `m'` is the memory in which the list ends with `r`. -/
theorem chain_joinNext {q : Nat} {r : Region} (hs : Spaced e (l ++ [r])) (hp : p ≤ e) (hl : Linked m' p (l ++ [r]))
    (ht : Chain m q t) (hst : Spaced e t) (hhead : ∀ n ∈ t.head?, 8 ≤ n.addr ∧ r.stop ≤ n.addr)
    (hbehind : ∀ x, r.stop ≤ x → m' x = m x) (hend : r.stop < addrFromOffset endOfList) :
    Chain (joinNext m' r.addr (addrFromOffset (m q).nextOffset)) p (l ++ pushFront r t) := by
  obtain ⟨hl1, hl2⟩ := linked_append.mp hl
  obtain ⟨hnext, hsize, -⟩ := hl2
  obtain ⟨sl, s1, s2, -⟩ := spaced_append.mp hs
  have hle := sl.lastAddr_le hp
  have hrend : regionEnd m' r.addr = r.stop := by rw [regionEnd, hsize]; rfl
  -- what is in front of the region stays linked when only its own header changes
  have front : ∀ mem : Memory, (∀ x, x ≠ r.addr → mem x = m' x) →
      Linked mem p l ∧ (mem (lastAddr p l)).nextOffset = offsetFromAddr r.addr := by
    intro mem hmem
    refine ⟨hl1.congr hp sl (fun x hx => hmem x (by omega)) (fun _ => by rw [hmem _ (by omega)]), ?_⟩
    rw [hmem _ (by omega), hnext]
  have hlt : r.addr < r.stop := Nat.lt_add_of_pos_right s2
  unfold joinNext
  rw [hrend]
  cases t with
  | nil =>
    have hnil : (m q).nextOffset = endOfList := ht.2
    rw [hnil, if_neg (by omega), pushFront]
    obtain ⟨f1, f2⟩ := front _ (fun x hx => setNext_of_ne m' r.addr (offsetFromAddr (addrFromOffset endOfList)) hx)
    refine chain_append.mpr ⟨f1, chain_cons.mpr ⟨f2, by rw [setNext_size, hsize], trivial, ?_⟩⟩
    show (setNext m' r.addr _ r.addr).nextOffset = endOfList
    rw [setNext_next_self]
    rfl
  | cons n t =>
    obtain ⟨h8, hstop⟩ := hhead n rfl
    obtain ⟨g1, g2, g3⟩ := chain_cons.mp ht
    obtain ⟨-, sn, st⟩ := hst
    have haddr : addrFromOffset (m q).nextOffset = n.addr := by
      rw [g1, addrFromOffset, offsetFromAddr]
      omega
    have hn : m' n.addr = m n.addr := hbehind _ hstop
    have hnstop : n.addr < n.stop := Nat.lt_add_of_pos_right sn
    rw [haddr, pushFront]
    by_cases htouch : r.stop = n.addr
    · rw [if_pos htouch, if_pos htouch]
      obtain ⟨f1, f2⟩ := front (setNext (setSize m' r.addr ((m' r.addr).size + (m' n.addr).size)) r.addr
        (m' n.addr).nextOffset) (fun x hx => by rw [setNext_of_ne _ _ _ hx, setSize_of_ne _ _ _ hx])
      refine chain_append.mpr ⟨f1, chain_cons.mpr ⟨f2, ?_, ?_⟩⟩
      · rw [setNext_size, setSize_size_self, hsize, hn, g2]
      · refine g3.move (e := n.stop) st (by rw [setNext_next_self, hn]) ?_
        intro x hx
        rw [setNext_of_ne _ _ _ (by omega), setSize_of_ne _ _ _ (by omega), hbehind x (by omega)]
    · rw [if_neg htouch, if_neg htouch]
      obtain ⟨f1, f2⟩ := front _ (fun x hx => setNext_of_ne m' r.addr (offsetFromAddr n.addr) hx)
      refine chain_append.mpr ⟨f1, chain_cons.mpr ⟨f2, by rw [setNext_size, hsize], ?_⟩⟩
      refine ht.move (e := r.stop) ⟨by omega, sn, st⟩ (by rw [setNext_next_self, g1]) ?_
      intro x hx
      rw [setNext_of_ne _ _ _ (by omega), hbehind x (by omega)]

/-! ## The free list -/

/-- A region that lies in the area of the heap. -/
structure Fits (areaSize : Nat) (r : Region) : Prop where
  addr_aligned : 8 ∣ r.addr
  size_aligned : 8 ∣ r.size
  first : 8 ≤ r.addr
  last : r.stop ≤ 8 + areaSize

/-- The headers spell the regions of a free list. -/
structure FreeChain (areaSize : Nat) (h : Heap) (rs : List Region) : Prop where
  chain : Chain h.mem 0 rs
  spaced : Spaced 0 rs
  first : (h.mem 0).size = 0
  fits : ∀ r ∈ rs, Fits areaSize r
  skip : h.skip = 0 ∨ ∃ r ∈ rs, r.addr = h.skip

variable {areaSize b n : Nat} {h : Heap} {rs : List Region}

theorem Linked.congr_on (hp : m' p = m p) (hrs : ∀ r ∈ rs, m' r.addr = m r.addr) (hl : Linked m p rs) :
    Linked m' p rs := by
  induction rs generalizing p with
  | nil => trivial
  | cons r rs ih =>
    obtain ⟨g1, g2, g3⟩ := hl
    have hr := hrs r List.mem_cons_self
    exact ⟨by rw [hp, g1], by rw [hr, g2], ih hr (fun s hs => hrs s (List.mem_cons_of_mem r hs)) g3⟩

/-- Nothing but the headers of the list matters. -/
theorem FreeChain.congr (h0 : m' 0 = h.mem 0) (hrs : ∀ r ∈ rs, m' r.addr = h.mem r.addr)
    (hf : FreeChain areaSize h rs) : FreeChain areaSize ⟨m', h.skip⟩ rs where
  chain := by
    refine ⟨hf.chain.1.congr_on h0 hrs, ?_⟩
    show (m' (lastAddr 0 rs)).nextOffset = endOfList
    cases lastAddr_cases 0 rs with
    | inl hnil =>
      have hend := hf.chain.2
      rw [hnil.2] at hend ⊢
      rw [h0, hend]
    | inr hsome =>
      obtain ⟨l, r, heq, hr⟩ := hsome
      have hend := hf.chain.2
      rw [hr] at hend ⊢
      rw [hrs r (by rw [heq]; simp), hend]
  spaced := hf.spaced
  first := by
    show (m' 0).size = 0
    rw [h0, hf.first]
  fits := hf.fits
  skip := hf.skip

theorem freeChain_init (hpos : 0 < areaSize) (halign : 8 ∣ areaSize) :
    FreeChain areaSize (Heap.init areaSize) [⟨8, areaSize⟩] where
  chain := by
    refine chain_cons.mpr ⟨?_, ?_, trivial, ?_⟩
    · simp [Heap.init]
    · simp [Heap.init, setNext, setSize]
    · simp [Heap.init, setNext, setSize, lastAddr]
  spaced := ⟨by show 0 < 8; omega, hpos, trivial⟩
  first := by simp [Heap.init]
  fits := by
    intro r hr
    rw [List.mem_singleton.mp hr]
    exact ⟨by simp, halign, Nat.le_refl 8, Nat.le_refl _⟩
  skip := Or.inl rfl

theorem findPrevLoop_spec {l t : List Region} (hb : b ≤ addrFromOffset endOfList) (ht : ∀ r ∈ t, b ≤ r.addr)
    (hl : ∀ r ∈ l, 8 ≤ r.addr ∧ r.addr < b) (fuel p : Nat) (hfuel : l.length < fuel) (hc : Chain m p (l ++ t)) :
    findPrevLoop m (offsetFromAddr b) fuel p = some (lastAddr p l) := by
  induction l generalizing fuel p with
  | nil =>
    cases fuel with
    | zero => exact absurd hfuel (Nat.not_lt_zero _)
    | succ fuel =>
      have hge : ¬ (m p).nextOffset < offsetFromAddr b := by
        cases t with
        | nil =>
          have hnil : (m p).nextOffset = endOfList := hc.2
          rw [hnil, offsetFromAddr]
          simp only [addrFromOffset] at hb
          omega
        | cons r t =>
          have hr := ht r List.mem_cons_self
          rw [(chain_cons.mp hc).1, offsetFromAddr, offsetFromAddr]
          omega
      rw [findPrevLoop, if_neg hge, lastAddr]
  | cons r l ih =>
    cases fuel with
    | zero => exact absurd hfuel (Nat.not_lt_zero _)
    | succ fuel =>
      obtain ⟨h8, hlt⟩ := hl r List.mem_cons_self
      obtain ⟨g1, -, g3⟩ := chain_cons.mp hc
      have hr : offsetFromAddr r.addr < offsetFromAddr b := by
        rw [offsetFromAddr, offsetFromAddr]
        omega
      have haddr : addrFromOffset (offsetFromAddr r.addr) = r.addr := by
        rw [addrFromOffset, offsetFromAddr]
        omega
      rw [findPrevLoop, g1, if_pos hr, haddr, lastAddr]
      exact ih (fun s hs => hl s (List.mem_cons_of_mem r hs)) fuel r.addr (by simp at hfuel; omega) g3

theorem findPrev_spec (harea : areaSize + 8 < 2 ^ 32) (hb : b ≤ 8 + areaSize) (hf : FreeChain areaSize h (l ++ t))
    (hl : ∀ r ∈ l, r.addr < b) (ht : ∀ r ∈ t, b ≤ r.addr) : findPrev h b = some (lastAddr 0 l) := by
  have hl8 : ∀ r ∈ l, 8 ≤ r.addr ∧ r.addr < b :=
    fun r hr => ⟨(hf.fits r (List.mem_append_left t hr)).first, hl r hr⟩
  have hend : b ≤ addrFromOffset endOfList := by
    rw [addrFromOffset, endOfList]
    omega
  have hlen : l.length ≤ b := by
    have hle := (spaced_append.mp hf.spaced).1.length_le (Nat.le_refl 0)
    cases lastAddr_cases 0 l with
    | inl hnil => rw [hnil.1]; exact Nat.zero_le b
    | inr hlast =>
      obtain ⟨l', r, heq, hr⟩ := hlast
      have := hl r (by rw [heq]; simp)
      omega
  unfold findPrev
  by_cases hskip : b > h.skip
  · rw [if_pos hskip]
    cases hf.skip with
    | inl hzero =>
      rw [hzero]
      exact findPrevLoop_spec hend ht hl8 _ 0 (by omega) hf.chain
    | inr hmem =>
      -- the region of the skip pointer is one of those before the block
      obtain ⟨r, hr, haddr⟩ := hmem
      have hrl : r ∈ l := by
        cases List.mem_append.mp hr with
        | inl hin => exact hin
        | inr hin =>
          have := ht r hin
          omega
      obtain ⟨l1, l2, heq⟩ := List.append_of_mem hrl
      have hchain : Chain h.mem r.addr (l2 ++ t) := by
        have hc := hf.chain
        rw [heq, List.append_assoc, chain_append, List.cons_append, chain_cons] at hc
        exact hc.2.2.2
      have hlast : lastAddr 0 l = lastAddr r.addr l2 := by
        rw [heq, lastAddr_append]
        rfl
      rw [← haddr, hlast]
      refine findPrevLoop_spec hend ht (fun s hs => hl8 s ?_) _ _ ?_ hchain
      · rw [heq]
        simp [hs]
      · rw [heq, List.length_append, List.length_cons] at hlen
        omega
  · rw [if_neg hskip]
    exact findPrevLoop_spec hend ht hl8 _ 0 (by omega) hf.chain

theorem fits_pushFront {r : Region} (hr : Fits areaSize r) (ht : ∀ s ∈ t, Fits areaSize s) :
    ∀ s ∈ pushFront r t, Fits areaSize s := by
  intro s hs
  cases t with
  | nil =>
    rw [List.mem_singleton.mp hs]
    exact hr
  | cons n t =>
    have hn := ht n List.mem_cons_self
    rw [pushFront] at hs
    split at hs
    · rename_i htouch
      cases List.mem_cons.mp hs with
      | inl heq =>
        rw [heq]
        refine ⟨hr.addr_aligned, Nat.dvd_add hr.size_aligned hn.size_aligned, hr.first, ?_⟩
        have hlast := hn.last
        simp only [Region.stop] at htouch hlast ⊢
        omega
      | inr hin => exact ht s (List.mem_cons_of_mem n hin)
    · cases List.mem_cons.mp hs with
      | inl heq => rw [heq]; exact hr
      | inr hin => exact ht s hin

theorem joinNext_size {x block next : Nat} (hx : x ≠ block) : (joinNext m block next x).size = (m x).size := by
  unfold joinNext
  split
  · rw [setNext_size, setSize_of_ne _ _ _ hx]
  · rw [setNext_size]

section

variable (harea : areaSize + 8 < 2 ^ 32) (hb : Fits areaSize ⟨b, n⟩) (hn : 0 < n)

include harea hb in
/-- What `chain_joinNext` asks of the list behind a region that ends where the block ends. -/
theorem stop_lt_head {r : Region} (hr : r.stop = b + n) (hft : ∀ s ∈ t, Fits areaSize s)
    (ht : ∀ s ∈ t, b + n ≤ s.addr) :
    r.stop < addrFromOffset endOfList ∧ ∀ s ∈ t.head?, 8 ≤ s.addr ∧ r.stop ≤ s.addr := by
  have hlast : b + n ≤ 8 + areaSize := hb.last
  constructor
  · rw [hr, addrFromOffset, endOfList]
    omega
  · intro s hs
    have hst := List.mem_of_mem_head? hs
    exact ⟨(hft s hst).first, by rw [hr]; exact ht s hst⟩

include harea hb hn in
/-- The block touches the region before it. -/
theorem insertBlock_touching {q : Region} (hq : q.stop = b) (hf : FreeChain areaSize h (l ++ q :: t))
    (ht : ∀ r ∈ t, b + n ≤ r.addr) :
    FreeChain areaSize (insertBlock h b q.addr n) (l ++ pushFront ⟨q.addr, q.size + n⟩ t) := by
  obtain ⟨hlink, hqt⟩ := chain_append.mp hf.chain
  obtain ⟨hnext, hsize, htail⟩ := chain_cons.mp hqt
  obtain ⟨hsl, hq1, hq2, hst⟩ := spaced_append.mp hf.spaced
  have hfl : ∀ r ∈ l, Fits areaSize r := fun r hr => hf.fits r (List.mem_append_left _ hr)
  have hft : ∀ r ∈ t, Fits areaSize r := fun r hr => hf.fits r (by simp [hr])
  have hqf : Fits areaSize q := hf.fits q (by simp)
  have hqb : q.addr + q.size = b := hq
  have hstop : (⟨q.addr, q.size + n⟩ : Region).stop = b + n := by
    simp only [Region.stop]
    omega
  obtain ⟨hend, hhead⟩ := stop_lt_head harea hb hstop hft ht
  have hst' : Spaced (lastStop 0 l) t := hst.mono (by rw [hq]; omega)
  have hle := hsl.lastAddr_le (Nat.le_refl 0)
  have hq0 : 0 ≠ q.addr := by omega
  unfold insertBlock
  rw [regionEnd, hsize, if_pos hqb]
  refine ⟨?_, ?_, ?_, ?_, ?_⟩
  · have hspaced : Spaced 0 (l ++ [⟨q.addr, q.size + n⟩]) :=
      spaced_append.mpr ⟨hsl, hq1, Nat.lt_add_left q.size hn, trivial⟩
    refine chain_joinNext hspaced (Nat.le_refl 0) ?_ htail (hst'.mono (Nat.zero_le _)) hhead ?_ hend
    · refine linked_append.mpr ⟨?_, ?_, ?_, trivial⟩
      · refine hlink.congr (Nat.le_refl 0) hsl ?_ ?_
        · intro x hx
          rw [setSize_of_ne _ _ _ (by omega)]
        · intro _
          rw [setSize_of_ne _ _ _ (by omega)]
      · rw [setSize_next, hnext]
      · rw [setSize_size_self]
    · intro x hx
      rw [hstop] at hx
      rw [setSize_of_ne _ _ _ (by omega)]
  · exact spaced_append.mpr ⟨hsl, spaced_pushFront hq1 (Nat.lt_add_left q.size hn) hst' fun s hs => (hhead s hs).2⟩
  · show (joinNext _ _ _ 0).size = 0
    rw [joinNext_size hq0, setSize_of_ne _ _ _ hq0, hf.first]
  · intro s hs
    cases List.mem_append.mp hs with
    | inl hin => exact hfl s hin
    | inr hin =>
      have hjoin : Fits areaSize ⟨q.addr, q.size + n⟩ :=
        ⟨hqf.addr_aligned, Nat.dvd_add hqf.size_aligned hb.size_aligned, hqf.first, by rw [hstop]; exact hb.last⟩
      exact fits_pushFront hjoin hft s hin
  · obtain ⟨s, hs, haddr⟩ := exists_mem_pushFront ⟨q.addr, q.size + n⟩ t
    exact Or.inr ⟨s, List.mem_append_right l hs, haddr⟩

include harea hb hn in
/-- The block does not touch it. -/
theorem insertBlock_apart (hf : FreeChain areaSize h (l ++ t)) (hlt : lastStop 0 l < b)
    (hend : regionEnd h.mem (lastAddr 0 l) ≠ b) (ht : ∀ r ∈ t, b + n ≤ r.addr) :
    FreeChain areaSize (insertBlock h b (lastAddr 0 l) n) (l ++ pushFront ⟨b, n⟩ t) := by
  obtain ⟨hlink, htail⟩ := chain_append.mp hf.chain
  obtain ⟨hsl, hst⟩ := spaced_append.mp hf.spaced
  have hfl : ∀ r ∈ l, Fits areaSize r := fun r hr => hf.fits r (List.mem_append_left t hr)
  have hft : ∀ r ∈ t, Fits areaSize r := fun r hr => hf.fits r (List.mem_append_right l hr)
  have hstop : (⟨b, n⟩ : Region).stop = b + n := rfl
  obtain ⟨hbound, hhead⟩ := stop_lt_head harea hb hstop hft ht
  have hle := hsl.lastAddr_le (Nat.le_refl 0)
  unfold insertBlock
  rw [if_neg hend]
  refine ⟨?_, ?_, ?_, ?_, ?_⟩
  · refine chain_joinNext (spaced_append.mpr ⟨hsl, hlt, hn, trivial⟩) (Nat.le_refl 0) ?_ htail
      (hst.mono (Nat.zero_le _)) hhead ?_ hbound
    · refine linked_append.mpr ⟨?_, ?_, ?_, trivial⟩
      · refine hlink.congr (Nat.le_refl 0) hsl ?_ ?_
        · intro x hx
          rw [setNext_of_ne _ _ _ (by omega), setSize_of_ne _ _ _ (by omega)]
        · intro _
          rw [setNext_size, setSize_of_ne _ _ _ (by omega)]
      · rw [setNext_next_self]
      · rw [setNext_size, setSize_size_self]
    · intro x hx
      rw [hstop] at hx
      rw [setNext_of_ne _ _ _ (by omega), setSize_of_ne _ _ _ (by omega)]
  · exact spaced_append.mpr ⟨hsl, spaced_pushFront hlt hn hst fun s hs => (hhead s hs).2⟩
  · show (joinNext _ _ _ 0).size = 0
    rw [joinNext_size (by omega), setNext_size, setSize_of_ne _ _ _ (by omega), hf.first]
  · intro s hs
    cases List.mem_append.mp hs with
    | inl hin => exact hfl s hin
    | inr hin => exact fits_pushFront hb hft s hin
  · cases lastAddr_cases 0 l with
    | inl hnil => exact Or.inl hnil.2
    | inr hsome =>
      obtain ⟨l', q, heq, hq⟩ := hsome
      exact Or.inr ⟨q, by rw [heq]; simp, hq.symm⟩

include harea hb hn in
theorem insertBlock_spec (hf : FreeChain areaSize h (l ++ t)) (hl : ∀ r ∈ l, r.stop ≤ b)
    (ht : ∀ r ∈ t, b + n ≤ r.addr) :
    ∃ rs, FreeChain areaSize (insertBlock h b (lastAddr 0 l) n) rs ∧
      ∀ a, coverage rs a = coverage (l ++ t) a + cover ⟨b, n⟩ a := by
  have h8 : 8 ≤ b := hb.first
  have apart : lastStop 0 l < b → regionEnd h.mem (lastAddr 0 l) ≠ b →
      ∃ rs, FreeChain areaSize (insertBlock h b (lastAddr 0 l) n) rs ∧
        ∀ a, coverage rs a = coverage (l ++ t) a + cover ⟨b, n⟩ a := by
    intro hlt hend
    refine ⟨_, insertBlock_apart harea hb hn hf hlt hend ht, ?_⟩
    intro a
    rw [coverage_append, coverage_pushFront, coverage_append]
    omega
  cases lastAddr_cases 0 l with
  | inl hnil =>
    -- the head of the list never touches a block
    refine apart ?_ ?_
    · rw [hnil.1]
      show 0 < b
      omega
    · rw [hnil.2, regionEnd, hf.first]
      omega
  | inr hsome =>
    obtain ⟨l', q, rfl, hq⟩ := hsome
    rw [List.append_assoc, List.singleton_append] at hf
    have hsize : (h.mem q.addr).size = q.size := (chain_cons.mp (chain_append.mp hf.chain).2).2.1
    by_cases htouch : q.stop = b
    · rw [hq, List.append_assoc, List.singleton_append]
      refine ⟨_, insertBlock_touching harea hb hn htouch hf ht, ?_⟩
      intro a
      have hjoin := cover_join q.addr q.size n a
      have hqb : q.addr + q.size = b := htouch
      rw [hqb] at hjoin
      rw [coverage_append, coverage_pushFront, hjoin, coverage_append, coverage_cons]
      show _ = coverage l' a + (cover ⟨q.addr, q.size⟩ a + coverage t a) + cover ⟨b, n⟩ a
      omega
    · have hqb := hl q (by simp)
      refine apart ?_ ?_
      · rw [lastStop_append]
        exact Nat.lt_of_le_of_ne hqb htouch
      · rw [hq, regionEnd, hsize]
        exact htouch

end

/-! ## Taking a block -/

theorem fits_takeFront {r : Region} (hn : 8 ∣ n) (hle : n ≤ r.size) (hr : Fits areaSize r) :
    Fits areaSize ⟨r.addr, n⟩ ∧ ∀ s ∈ takeFront r n, Fits areaSize s := by
  have hlast := hr.last
  simp only [Region.stop] at hlast
  constructor
  · refine ⟨hr.addr_aligned, hn, hr.first, ?_⟩
    simp only [Region.stop]
    omega
  · intro s hs
    unfold takeFront at hs
    split at hs
    · rw [List.mem_singleton.mp hs]
      refine ⟨Nat.dvd_add hr.addr_aligned hn, Nat.dvd_sub hr.size_aligned hn, Nat.le_add_right_of_le hr.first, ?_⟩
      simp only [Region.stop]
      omega
    · cases hs

theorem takeMemory_first {prev current : Nat} (hc : current + n ≠ 0) (hm : (m 0).size = 0) :
    (takeMemory m prev current n 0).size = 0 := by
  unfold takeMemory
  split
  · rw [setNext_size, setNext_size, setSize_of_ne _ _ _ (Ne.symm hc), hm]
  · rw [setNext_size, hm]

theorem freeChain_takeFront {r : Region} (hn : 0 < n) (halign : 8 ∣ n) (hle : n ≤ r.size)
    (hf : FreeChain areaSize h (l ++ r :: t)) :
    FreeChain areaSize ⟨takeMemory h.mem (lastAddr 0 l) r.addr n, lastAddr 0 l⟩ (l ++ (takeFront r n ++ t)) := by
  have hr : Fits areaSize r := hf.fits r (by simp)
  refine ⟨chain_takeFront hn hf.spaced (Nat.le_refl 0) hf.chain, spaced_takeFront hle hf.spaced, ?_, ?_, ?_⟩
  · exact takeMemory_first (by omega) hf.first
  · intro s hs
    cases List.mem_append.mp hs with
    | inl hin => exact hf.fits s (List.mem_append_left _ hin)
    | inr hin =>
      cases List.mem_append.mp hin with
      | inl htake => exact (fits_takeFront halign hle hr).2 s htake
      | inr ht => exact hf.fits s (by simp [ht])
  · cases lastAddr_cases 0 l with
    | inl hnil => exact Or.inl hnil.2
    | inr hsome =>
      obtain ⟨l', q, heq, hq⟩ := hsome
      exact Or.inr ⟨q, by rw [heq]; simp, hq.symm⟩

/-- A block was taken out of the list. -/
def Taken (areaSize : Nat) (rs : List Region) (block : Region) (h : Heap) : Prop :=
  Fits areaSize block ∧ ∃ rs', FreeChain areaSize h rs' ∧ ∀ a, coverage rs' a + cover block a = coverage rs a

theorem taken_takeFront {r : Region} (hn : 0 < n) (halign : 8 ∣ n) (hle : n ≤ r.size)
    (hf : FreeChain areaSize h (l ++ r :: t)) :
    Taken areaSize (l ++ r :: t) ⟨r.addr, n⟩ ⟨takeMemory h.mem (lastAddr 0 l) r.addr n, lastAddr 0 l⟩ := by
  refine ⟨(fits_takeFront halign hle (hf.fits r (by simp))).1, _, freeChain_takeFront hn halign hle hf, ?_⟩
  intro a
  have hcover := coverage_takeFront hle a
  rw [coverage_append, coverage_append, coverage_append, coverage_cons]
  omega

theorem FreeChain.length_lt (hf : FreeChain areaSize h rs) : rs.length < areaSize + 8 := by
  have hle := hf.spaced.length_le (Nat.le_refl 0)
  cases lastAddr_cases 0 rs with
  | inl hnil => rw [hnil.1]; exact Nat.succ_pos _
  | inr hsome =>
    obtain ⟨l, r, heq, hr⟩ := hsome
    have hmem : r ∈ rs := by rw [heq]; simp
    have hlast := (hf.fits r hmem).last
    have hpos := (hf.spaced.mem_bounds hmem).2.1
    simp only [Region.stop] at hlast
    omega

/-- The loop takes the first region that is big enough. -/
theorem allocLoop_first (harea : areaSize + 8 < 2 ^ 32) (fuel : Nat) (hfuel : t.length < fuel)
    (hf : FreeChain areaSize h (l ++ t)) :
    allocLoop h n fuel (lastAddr 0 l) (h.mem (lastAddr 0 l)).nextOffset = some none ∧ (∀ r ∈ t, r.size < n) ∨
      ∃ l' r t', t = l' ++ r :: t' ∧ (∀ q ∈ l', q.size < n) ∧ n ≤ r.size ∧
        allocLoop h n fuel (lastAddr 0 l) (h.mem (lastAddr 0 l)).nextOffset =
          some (some (r.addr, ⟨takeMemory h.mem (lastAddr 0 (l ++ l')) r.addr n, lastAddr 0 (l ++ l')⟩)) := by
  induction t generalizing l fuel with
  | nil =>
    cases fuel with
    | zero => exact absurd hfuel (Nat.not_lt_zero _)
    | succ fuel =>
      have hnil : (h.mem (lastAddr 0 l)).nextOffset = endOfList := (chain_append.mp hf.chain).2.2
      exact Or.inl ⟨by rw [allocLoop, if_pos hnil], by simp⟩
  | cons r t ih =>
    cases fuel with
    | zero => exact absurd hfuel (Nat.not_lt_zero _)
    | succ fuel =>
      have hr : Fits areaSize r := hf.fits r (by simp)
      obtain ⟨g1, g2, g3⟩ := chain_cons.mp (chain_append.mp hf.chain).2
      have h8 := hr.first
      have hlast := hr.last
      have hstop : r.addr ≤ r.stop := Nat.le_add_right _ _
      have haddr : addrFromOffset (offsetFromAddr r.addr) = r.addr := by
        rw [addrFromOffset, offsetFromAddr]
        omega
      have hne : offsetFromAddr r.addr ≠ endOfList := by
        rw [offsetFromAddr, endOfList]
        omega
      rw [allocLoop, g1, if_neg hne, haddr]
      dsimp only
      rw [g2]
      by_cases hbig : r.size ≥ n
      · rw [if_pos hbig]
        exact Or.inr ⟨[], r, t, rfl, by simp, hbig, by rw [List.append_nil]⟩
      · have hlastr : lastAddr 0 (l ++ [r]) = r.addr := by rw [lastAddr_append]; rfl
        have hrec := ih (l := l ++ [r]) fuel (by simp at hfuel; omega) (by simpa using hf)
        rw [if_neg hbig]
        rw [hlastr] at hrec
        rcases hrec with ⟨hnone, hsmall⟩ | ⟨l', q, t', rfl, hsmall, hq, hsome⟩
        · exact Or.inl ⟨hnone, List.forall_mem_cons.mpr ⟨Nat.not_le.mp hbig, hsmall⟩⟩
        · rw [List.append_assoc] at hsome
          exact Or.inr ⟨r :: l', q, t', rfl, List.forall_mem_cons.mpr ⟨Nat.not_le.mp hbig, hsmall⟩, hq, hsome⟩

theorem allocLoop_spec (harea : areaSize + 8 < 2 ^ 32) (hn : 0 < n) (halign : 8 ∣ n) (fuel : Nat)
    (hfuel : t.length < fuel) (hf : FreeChain areaSize h (l ++ t)) :
    allocLoop h n fuel (lastAddr 0 l) (h.mem (lastAddr 0 l)).nextOffset = some none ∨
      ∃ p h', allocLoop h n fuel (lastAddr 0 l) (h.mem (lastAddr 0 l)).nextOffset = some (some (p, h')) ∧
        Taken areaSize (l ++ t) ⟨p, n⟩ h' := by
  rcases allocLoop_first (n := n) harea fuel hfuel hf with ⟨hnone, -⟩ | ⟨l', r, t', rfl, -, hbig, hsome⟩
  · exact Or.inl hnone
  · rw [← List.append_assoc] at hf ⊢
    exact Or.inr ⟨_, _, hsome, taken_takeFront hn halign hbig hf⟩

/-! ## Extending a block -/

theorem taken_takeBack {q : Region} (hn : 0 < n) (halign : 8 ∣ n) (hlt : n < q.size) (hqb : q.addr + q.size = b)
    (hf : FreeChain areaSize h (l ++ q :: t)) :
    Taken areaSize (l ++ q :: t) ⟨b - n, n⟩ ⟨setSize h.mem q.addr (q.size - n), q.addr⟩ := by
  have hq : Fits areaSize q := hf.fits q (by simp)
  have hq8 := hq.first
  have hlast := hq.last
  have hback : b - n = q.addr + (q.size - n) := by omega
  have halign' : 8 ∣ q.size - n := Nat.dvd_sub hq.size_aligned halign
  simp only [Region.stop] at hlast
  refine ⟨?_, l ++ ⟨q.addr, q.size - n⟩ :: t, ⟨?_, ?_, ?_, ?_, ?_⟩, ?_⟩
  · refine ⟨?_, halign, ?_, ?_⟩
    · rw [hback]
      exact Nat.dvd_add hq.addr_aligned halign'
    · show 8 ≤ b - n
      omega
    · show b - n + n ≤ 8 + areaSize
      omega
  · exact chain_takeBack hf.spaced (Nat.le_refl 0) hf.chain
  · obtain ⟨hl, h1, h2, ht⟩ := spaced_append.mp hf.spaced
    refine spaced_append.mpr ⟨hl, h1, Nat.sub_pos_of_lt hlt, ht.mono ?_⟩
    simp only [Region.stop]
    omega
  · show (setSize h.mem q.addr (q.size - n) 0).size = 0
    rw [setSize_of_ne _ _ _ (by omega), hf.first]
  · intro s hs
    cases List.mem_append.mp hs with
    | inl hin => exact hf.fits s (List.mem_append_left _ hin)
    | inr hin =>
      cases List.mem_cons.mp hin with
      | inl heq =>
        rw [heq]
        refine ⟨hq.addr_aligned, halign', hq.first, ?_⟩
        simp only [Region.stop]
        omega
      | inr ht => exact hf.fits s (by simp [ht])
  · exact Or.inr ⟨⟨q.addr, q.size - n⟩, by simp, rfl⟩
  · intro a
    have hsplit := cover_split (p := q.addr) (s := q.size) (n := q.size - n) (by omega) a
    have hrest : q.size - (q.size - n) = n := by omega
    rw [hrest, ← hback] at hsplit
    rw [coverage_append, coverage_append, coverage_cons, coverage_cons]
    show _ = coverage l a + (cover ⟨q.addr, q.size⟩ a + coverage t a)
    omega

theorem extendBlock_spec (harea : areaSize + 8 < 2 ^ 32) {old : Nat} (hb : Fits areaSize ⟨b, old⟩) (hold : 0 < old)
    (hn : 0 < n) (halign : 8 ∣ n) (hf : FreeChain areaSize h (l ++ t)) (hl : ∀ r ∈ l, r.stop ≤ b)
    (ht : ∀ r ∈ t, b + old ≤ r.addr) :
    extendBlock h b old n = some none ∨
      ∃ h', extendBlock h b old n = some (some (b, h')) ∧ Taken areaSize (l ++ t) ⟨b + old, n⟩ h' ∨
        extendBlock h b old n = some (some (b - n, h')) ∧ Taken areaSize (l ++ t) ⟨b - n, n⟩ h' ∧ n ≤ b := by
  have h8 : 8 ≤ b := hb.first
  have hlast : b + old ≤ 8 + areaSize := hb.last
  obtain ⟨hlink, htail⟩ := chain_append.mp hf.chain
  have hlt : ∀ r ∈ l, r.addr < b := by
    intro r hr
    have h1 := hl r hr
    have h2 := ((spaced_append.mp hf.spaced).1.mem_bounds hr).2.1
    simp only [Region.stop] at h1
    omega
  have hprev := findPrev_spec harea (by omega) hf hlt (fun r hr => by have := ht r hr; omega)
  unfold extendBlock
  rw [hprev, Option.bind_some]
  by_cases hend : b + old = addrFromOffset (h.mem (lastAddr 0 l)).nextOffset
  · rw [if_pos hend]
    cases t with
    | nil =>
      have hnil : (h.mem (lastAddr 0 l)).nextOffset = endOfList := htail.2
      rw [hnil, addrFromOffset, endOfList] at hend
      omega
    | cons r t =>
      obtain ⟨g1, g2, g3⟩ := chain_cons.mp htail
      have hr : Fits areaSize r := hf.fits r (by simp)
      have hr8 := hr.first
      have haddr : addrFromOffset (h.mem (lastAddr 0 l)).nextOffset = r.addr := by
        rw [g1, addrFromOffset, offsetFromAddr]
        omega
      rw [haddr] at hend ⊢
      rw [g2]
      by_cases hbig : n ≤ r.size
      · rw [if_pos hbig, hend]
        exact Or.inr ⟨_, Or.inl ⟨rfl, taken_takeFront hn halign hbig hf⟩⟩
      · exact Or.inl (if_neg hbig)
  · rw [if_neg hend]
    by_cases hfront : regionEnd h.mem (lastAddr 0 l) = b
    · rw [if_pos hfront]
      cases lastAddr_cases 0 l with
      | inl hnil =>
        rw [hnil.2, regionEnd, hf.first] at hfront
        omega
      | inr hsome =>
        obtain ⟨l', q, rfl, hq⟩ := hsome
        rw [List.append_assoc, List.singleton_append] at hf
        rw [hq] at hfront htail ⊢
        obtain ⟨g1, g2, g3⟩ := chain_cons.mp (chain_append.mp hf.chain).2
        have hqf : Fits areaSize q := hf.fits q (by simp)
        have hqb : q.addr + q.size = b := by rw [← hfront, regionEnd, g2]
        rw [g2, List.append_assoc, List.singleton_append]
        by_cases hbig : n ≤ q.size
        · rw [if_pos hbig]
          right
          by_cases hall : n = q.size
          · -- the whole region goes, and the one before it is looked up again
            have hlt' : ∀ r ∈ l', r.addr < q.addr := by
              intro r hr
              have h1 := (spaced_append.mp hf.spaced).1.mem_bounds hr
              have h2 : lastStop 0 l' < q.addr := (spaced_append.mp hf.spaced).2.1
              have h3 : r.addr ≤ r.stop := Nat.le_add_right _ _
              omega
            have hge : ∀ r ∈ q :: t, q.addr ≤ r.addr := by
              intro r hr
              cases List.mem_cons.mp hr with
              | inl heq => exact Nat.le_of_eq (congrArg Region.addr heq.symm)
              | inr hin =>
                have := ht r hin
                omega
            have hprev' := findPrev_spec harea (by omega) hf hlt' hge
            have htaken := taken_takeFront hn halign hbig hf
            have hmem : takeMemory h.mem (lastAddr 0 l') q.addr n =
                setNext h.mem (lastAddr 0 l') (offsetFromAddr (addrFromOffset (h.mem q.addr).nextOffset)) := by
              rw [takeMemory, g2, if_neg (by omega), addrFromOffset, offsetFromAddr, Nat.add_sub_cancel]
            have haddr : b - n = q.addr := by omega
            rw [if_pos hall, hprev', Option.bind_some, haddr, ← hmem]
            exact ⟨_, Or.inr ⟨rfl, htaken, by omega⟩⟩
          · rw [if_neg hall]
            exact ⟨_, Or.inr ⟨rfl, taken_takeBack hn halign (by omega) hqb hf, by omega⟩⟩
        · exact Or.inl (if_neg hbig)
    · exact Or.inl (if_neg hfront)

end Jmem
end JJS
