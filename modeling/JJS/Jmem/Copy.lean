import JJS.Jmem.Runs

/-!
# JJS.Jmem.Copy

`jmem_heap_realloc_block` with the copies it makes. The memory of the heap is read in bytes: a header has eight, and
`copyBytes` is `memcpy` and `memmove`. A block that is copied has the bytes of the old one (`reallocData_spec`), and
apart from them the state is the one of `reallocBlock`.
-/

namespace JJS
namespace Jmem

open FreeList Outcome

/-! ## Bytes -/

/-- The bytes of `jmem_heap_free_t`: `next_offset` is the first field. -/
def Header.byte (h : Header) (i : Nat) : Nat :=
  if i < 4 then h.nextOffset / 256 ^ i % 256 else h.size / 256 ^ (i - 4) % 256

def Header.ofBytes (f : Nat → Nat) : Header where
  size := f 4 + 256 * f 5 + 256 ^ 2 * f 6 + 256 ^ 3 * f 7
  nextOffset := f 0 + 256 * f 1 + 256 ^ 2 * f 2 + 256 ^ 3 * f 3

/-- The byte at an address. -/
def byteAt (m : Memory) (a : Nat) : Nat := (m (a / 8 * 8)).byte (a % 8)

/-- `memcpy` and `memmove`: what is read are the bytes before the copy. -/
def copyBytes (m : Memory) (dst src len : Nat) : Memory := fun x =>
  if x % 8 = 0 ∧ dst < x + 8 ∧ x < dst + len then
    Header.ofBytes fun i => if dst ≤ x + i ∧ x + i < dst + len then byteAt m (src + (x + i - dst)) else byteAt m (x + i)
  else m x

theorem byte_lt (h : Header) (i : Nat) : h.byte i < 256 := by
  unfold Header.byte
  split
  · exact Nat.mod_lt _ (by decide)
  · exact Nat.mod_lt _ (by decide)

theorem digit_of_four {g : Nat → Nat} (hg : ∀ i, g i < 256) {i : Nat} (hi : i < 4) :
    (g 0 + 256 * g 1 + 256 ^ 2 * g 2 + 256 ^ 3 * g 3) / 256 ^ i % 256 = g i := by
  have h0 := hg 0
  have h1 := hg 1
  have h2 := hg 2
  have h3 := hg 3
  match i, hi with
  | 0, _ => omega
  | 1, _ => omega
  | 2, _ => omega
  | 3, _ => omega

theorem byte_ofBytes {f : Nat → Nat} (hf : ∀ i, f i < 256) {i : Nat} (hi : i < 8) : (Header.ofBytes f).byte i = f i := by
  unfold Header.byte
  by_cases hlow : i < 4
  · rw [if_pos hlow]
    exact digit_of_four hf hlow
  · rw [if_neg hlow]
    have hdigit := digit_of_four (fun j => hf (j + 4)) (show i - 4 < 4 by omega)
    rw [Nat.sub_add_cancel (Nat.le_of_not_lt hlow)] at hdigit
    exact hdigit

theorem copyBytes_of_outside {m : Memory} {dst src len x : Nat} (h : ¬ (x % 8 = 0 ∧ dst < x + 8 ∧ x < dst + len)) :
    copyBytes m dst src len x = m x := if_neg h

theorem byteAt_copyBytes (m : Memory) (dst src len a : Nat) :
    byteAt (copyBytes m dst src len) a =
      if dst ≤ a ∧ a < dst + len then byteAt m (src + (a - dst)) else byteAt m a := by
  have hword : a / 8 * 8 + a % 8 = a := Nat.div_add_mod' a 8
  have hmod : a % 8 < 8 := Nat.mod_lt a (by decide)
  rw [byteAt, copyBytes]
  by_cases hin : a / 8 * 8 % 8 = 0 ∧ dst < a / 8 * 8 + 8 ∧ a / 8 * 8 < dst + len
  · rw [if_pos hin, byte_ofBytes _ hmod, hword]
    intro i
    split
    · exact byte_lt _ _
    · exact byte_lt _ _
  · rw [if_neg hin, if_neg (by omega)]
    rfl

/-- A byte is in its header. -/
theorem byteAt_congr {m m' : Memory} {a : Nat} (h : m' (a / 8 * 8) = m (a / 8 * 8)) : byteAt m' a = byteAt m a := by
  rw [byteAt, byteAt, h]

/-! ## Reallocation -/

/-- The copy to a new block, if there is one. -/
def Heap.copyTo (h : Heap) (chunk : Chunk) (src len : Nat) : Heap :=
  match chunk with
  | some (p, _) => { h with mem := copyBytes h.mem p src len }
  | none => h

/-- `moveBlock` with its copy. -/
def moveData (cfg : Config) (s : State) (ptr oldSize newSize : Nat) : Except Stop (Chunk × State) :=
  let alignedOldSize := alignSize oldSize
  (allocBlockInternal cfg { s with allocatedSize := s.allocatedSize - alignedOldSize } newSize).bind fun (chunk, s) =>
    (bounded (findPrev s.heap ptr)).bind fun prev =>
      .ok (chunk, { s with heap := insertBlock (s.heap.copyTo chunk ptr oldSize) ptr prev alignedOldSize })

/-- `growBlock` with its copies: a block that is extended at its front is moved. -/
def growData (cfg : Config) (s : State) (ptr oldSize newSize : Nat) : Except Stop (Chunk × State) :=
  let alignedOldSize := alignSize oldSize
  let required := alignSize newSize - alignedOldSize
  (if (s.allocatedSize + required) % 2 ^ 64 ≥ s.limit then freeUnusedMemory cfg s .low else .ok s).bind fun s =>
    (bounded (extendBlock s.heap ptr alignedOldSize required)).bind fun extended =>
      match extended with
      | some (p, heap) =>
        .ok (some (p, .main),
          s.grow cfg (if p = ptr then heap else heap.copyTo (some (p, .main)) ptr oldSize) required)
      | none => moveData cfg s ptr oldSize newSize

/-- `shrinkBlock` with its copy: a block that becomes a cell is freed even when there is no cell. -/
def shrinkData (cfg : Config) (s : State) (ptr alignedOldSize alignedNewSize : Nat) : Except Stop (Chunk × State) :=
  if alignedNewSize ≤ cellSize then
    (heapAlloc cfg allocDepth s alignedNewSize).bind fun (chunk, s) =>
      (freeBlock cfg { s with heap := s.heap.copyTo chunk ptr alignedNewSize } ptr alignedOldSize).bind fun s =>
        .ok (chunk, s)
  else
    (bounded (findPrev s.heap ptr)).bind fun prev =>
      let size := alignedOldSize - alignedNewSize
      .ok (some (ptr, .main), s.shrink cfg (insertBlock s.heap (ptr + alignedNewSize) prev size) size)

/-- `jmem_heap_realloc_block`. -/
def reallocData (cfg : Config) (s : State) (ptr oldSize newSize : Nat) : Except Stop (Chunk × State) :=
  let alignedNewSize := alignSize newSize
  let alignedOldSize := alignSize oldSize
  match cellocatorFind s.pages ptr with
  | some _ =>
    if alignedNewSize ≤ cellSize then .ok (some (ptr, .cell), s)
    else
      (allocBlockInternal cfg s alignedNewSize).bind fun (chunk, s) =>
        match chunk with
        | some c => .ok (some c, cellFree { s with heap := s.heap.copyTo chunk ptr alignedOldSize } ptr)
        | none => .ok (none, s)
  | none =>
    if alignedOldSize = alignedNewSize then .ok (some (ptr, .main), s)
    else if alignedNewSize < alignedOldSize then shrinkData cfg s ptr alignedOldSize alignedNewSize
    else growData cfg s ptr oldSize newSize

/-! ## Copies -/

/-- The states differ in the bytes of a block at most. -/
structure Agrees (b : Block) (s s' : State) : Prop where
  rest : s' = { s with heap := s'.heap }
  skip : s'.heap.skip = s.heap.skip
  mem : ∀ x, ¬ b.Owns x → s'.heap.mem x = s.heap.mem x

/-- The new block begins with the bytes that the old one has in `m`. Apart from them the result is the one of the
reallocation without copies. -/
def Delivers (old : Block) (m : Memory) (n : Nat) (plain : Except Stop (Chunk × State)) : Chunk × State → Prop
  | (none, s') => plain = .ok (none, s')
  | (some (p, o), s') => ∃ s, plain = .ok (some (p, o), s) ∧ Agrees ⟨p, n, o⟩ s s' ∧
      ∀ i, i < min old.size n → byteAt s'.heap.mem (p + i) = byteAt m (old.ptr + i)

variable {cfg : Config} {P : Nat → Prop} {s s' : State} {b : Block} {held : List Block} {m : Memory} {p p' old n : Nat}
  {o o' : Origin} {r : Chunk × State}

theorem Agrees.refl (b : Block) (s : State) : Agrees b s s := ⟨rfl, rfl, fun _ _ => rfl⟩

theorem Block.owns_word (h8 : 8 ∣ b.ptr) {i : Nat} (hi : i < b.room) : b.Owns ((b.ptr + i) / 8 * 8) := by
  unfold Block.Owns
  omega

/-- A copy only writes to the block. -/
theorem copyBytes_of_not_owns (h8 : 8 ∣ b.ptr) {src len x : Nat} (hlen : len ≤ b.room) (hx : ¬ b.Owns x) :
    copyBytes m b.ptr src len x = m x := by
  refine copyBytes_of_outside ?_
  intro hin
  unfold Block.Owns at hx
  omega

theorem byteAt_copied (m : Memory) (dst src : Nat) {len i : Nat} (hi : i < len) :
    byteAt (copyBytes m dst src len) (dst + i) = byteAt m (src + i) := by
  rw [byteAt_copyBytes, if_pos (by omega), Nat.add_sub_cancel_left]

theorem byteAt_framed (h : Framed cfg P [b] m held s) (h8 : 8 ∣ b.ptr) {i : Nat} (hi : i < b.room) :
    byteAt s.heap.mem (b.ptr + i) = byteAt m (b.ptr + i) :=
  byteAt_congr (h.2 b List.mem_cons_self _ (Block.owns_word h8 hi))

theorem insertBlock_skip (h : Heap) (block prev size : Nat) : (insertBlock h block prev size).skip = prev := by
  unfold insertBlock
  dsimp only
  split <;> rfl

/-- The old block goes back after its bytes were copied to the new one. -/
theorem insertBlock_copied {bs : List Block} (h : Inv cfg P s (⟨p, old, .main⟩ :: b :: bs)) (src : Nat) {len : Nat}
    (hlen : len ≤ b.room) :
    ∃ prev, findPrev s.heap p = some prev ∧ findPrev ⟨copyBytes s.heap.mem b.ptr src len, s.heap.skip⟩ p = some prev ∧
      ∀ size, (∀ x, ¬ b.Owns x →
          (insertBlock ⟨copyBytes s.heap.mem b.ptr src len, s.heap.skip⟩ p prev size).mem x =
            (insertBlock s.heap p prev size).mem x) ∧
        ∀ i, i < len → byteAt (insertBlock ⟨copyBytes s.heap.mem b.ptr src len, s.heap.skip⟩ p prev size).mem (b.ptr + i) =
          byteAt s.heap.mem (src + i) := by
  have h8 : 8 ∣ b.ptr := h.aligned (List.mem_cons_of_mem _ List.mem_cons_self)
  have hused : ∀ x, b.Owns x → Used cfg s (b :: bs) x :=
    fun x hx => used_of_owns h (List.mem_cons_of_mem _ List.mem_cons_self) hx List.mem_cons_self
  obtain ⟨prev, hplace⟩ := giveBack_frame h
  obtain ⟨hprev, -, -⟩ := hplace s.heap.mem fun _ _ => rfl
  obtain ⟨hcopied, hkeep, hsame⟩ := hplace (copyBytes s.heap.mem b.ptr src len)
    fun x hx => copyBytes_of_not_owns h8 hlen fun howns => hx (hused x howns)
  refine ⟨prev, hprev, hcopied, fun size => ⟨?_, ?_⟩⟩
  · exact fun x hx => hsame size x (copyBytes_of_not_owns h8 hlen hx)
  · intro i hi
    rw [byteAt_congr (hkeep size _ (hused _ (Block.owns_word h8 (Nat.lt_of_lt_of_le hi hlen)))), byteAt_copied _ _ _ hi]

/-- The block is copied to a new one, which is bigger. -/
theorem moveData_spec (hsizes : Sizes cfg P) (hP : P n) (hold : old ≤ alignSize old) (hlt : alignSize old < alignSize n)
    (h : Framed cfg P [⟨p, old, .main⟩] m [] s) (hres : moveData cfg s p old n = .ok r) :
    Delivers ⟨p, old, .main⟩ m n (moveBlock cfg s p (alignSize old) n) r := by
  have hstart : Framed cfg P [⟨p, old, .main⟩] m [] { s with allocatedSize := s.allocatedSize - alignSize old } :=
    ⟨Inv.of_eq (s := s) h.1 rfl rfl rfl, h.2⟩
  have hspec := (framed_rules cfg P [⟨p, old, .main⟩] m).allocBlockInternal hsizes (fun _ => hP) hstart
  have hn : n ≠ 0 := by
    intro hzero
    rw [hzero] at hlt
    exact absurd hlt (Nat.not_lt_zero _)
  unfold moveData at hres
  unfold moveBlock
  dsimp only at hres
  cases halloc : allocBlockInternal cfg { s with allocatedSize := s.allocatedSize - alignSize old } n with
  | error e =>
    rw [halloc] at hres
    cases hres
  | ok q =>
    obtain ⟨chunk, s1⟩ := q
    have hsome := allocBlockInternal_ne_none hn halloc
    rw [halloc] at hres hspec
    cases chunk with
    | none => exact absurd rfl hsome
    | some c =>
      obtain ⟨p', o⟩ := c
      have hframed : Framed cfg P [⟨p, old, .main⟩] m [⟨p', n, o⟩] s1 := hspec
      have hnew : Inv cfg P s1 (⟨p', n, o⟩ :: ⟨p, old, .main⟩ :: s1.live) := hframed.1
      have hinv : Inv cfg P s1 (⟨p, old, .main⟩ :: ⟨p', n, o⟩ :: s1.live) := Inv.perm (List.Perm.swap _ _ _) hnew
      have hroom : old ≤ Block.room ⟨p', n, o⟩ := by
        cases o with
        | main =>
          show old ≤ alignSize n
          omega
        | cell =>
          have hbig := hinv.main_head.2
          have hsmall : alignSize n ≤ cellSize := hnew.cell ⟨p', n, .cell⟩ List.mem_cons_self rfl
          omega
      obtain ⟨prev, hprev, hcopied, hinsert⟩ := insertBlock_copied hinv p hroom
      obtain ⟨hsame, hbytes⟩ := hinsert (alignSize old)
      have hres' : ((bounded (findPrev s1.heap p)).bind fun prev => .ok (some (p', o), { s1 with
          heap := insertBlock (s1.heap.copyTo (some (p', o)) p old) p prev (alignSize old) })) = .ok r := hres
      rw [hprev] at hres'
      cases hres'
      refine ⟨{ s1 with heap := insertBlock s1.heap p prev (alignSize old) }, ?_, ⟨rfl, ?_, hsame⟩, ?_⟩
      · show ((bounded (findPrev s1.heap p)).bind _) = _
        rw [hprev]
        rfl
      · exact (insertBlock_skip _ _ _ _).trans (insertBlock_skip _ _ _ _).symm
      · intro i hi
        have hi' : i < old := Nat.lt_of_lt_of_le hi (Nat.min_le_left _ _)
        have h8 : 8 ∣ p := hinv.aligned List.mem_cons_self
        exact (hbytes i hi').trans (byteAt_framed hframed h8 (Nat.lt_of_lt_of_le hi' hold))

/-- A block that becomes smaller stays where it is, or is copied to a cell. -/
theorem shrinkData_spec (hsizes : Sizes cfg P) (hP : P n) (hn : n ≤ alignSize n) (hlt : alignSize n < alignSize old)
    (h : Holds cfg P [⟨p, old, .main⟩] s) (hres : shrinkData cfg s p (alignSize old) (alignSize n) = .ok r) :
    Delivers ⟨p, old, .main⟩ s.heap.mem n (shrinkBlock cfg s p (alignSize old) (alignSize n)) r := by
  unfold shrinkData at hres
  unfold shrinkBlock
  by_cases hcell : alignSize n ≤ cellSize
  · rw [if_pos hcell] at hres ⊢
    have hspec := (framed_rules cfg P [⟨p, old, .main⟩] s.heap.mem).heapAlloc hsizes allocDepth (alignSize n)
      (hsizes.round n hP) [] s (Or.inr (Or.inl (Nat.le_refl 2))) ⟨h, fun _ hb x _ => rfl⟩
    cases halloc : heapAlloc cfg allocDepth s (alignSize n) with
    | error e =>
      rw [halloc] at hres
      cases hres
    | ok q =>
      obtain ⟨chunk, s1⟩ := q
      rw [halloc] at hres hspec
      have hres' : ((freeBlock cfg { s1 with heap := s1.heap.copyTo chunk p (alignSize n) } p (alignSize old)).bind
          fun s => .ok (chunk, s)) = .ok r := hres
      cases chunk with
      | none =>
        cases hfree : freeBlock cfg s1 p (alignSize old) with
        | error e =>
          have hfree' : freeBlock cfg { s1 with heap := s1.heap.copyTo none p (alignSize n) } p (alignSize old) =
              .error e := hfree
          rw [hfree'] at hres'
          cases hres'
        | ok s2 =>
          have hfree' : freeBlock cfg { s1 with heap := s1.heap.copyTo none p (alignSize n) } p (alignSize old) =
              .ok s2 := hfree
          rw [hfree'] at hres'
          cases hres'
          show ((freeBlock cfg s1 p (alignSize old)).bind _) = _
          rw [hfree]
          rfl
      | some c =>
        obtain ⟨p', o⟩ := c
        have hframed : Framed cfg P [⟨p, old, .main⟩] s.heap.mem [⟨p', alignSize n, o⟩] s1 := hspec
        have hnew : Inv cfg P s1 (⟨p', alignSize n, o⟩ :: ⟨p, old, .main⟩ :: s1.live) := hframed.1
        have hinv : Inv cfg P s1 (⟨p, old, .main⟩ :: ⟨p', alignSize n, o⟩ :: s1.live) :=
          Inv.perm (List.Perm.swap _ _ _) hnew
        have hroom : alignSize n ≤ Block.room ⟨p', alignSize n, o⟩ := by
          cases o with
          | main => exact Nat.le_of_eq (alignSize_idem n).symm
          | cell => exact hcell
        have hrooms : Block.room ⟨p', alignSize n, o⟩ = Block.room ⟨p', n, o⟩ := by
          cases o with
          | main => exact alignSize_idem n
          | cell => rfl
        obtain ⟨prev, hprev, hcopied, hinsert⟩ := insertBlock_copied hinv p hroom
        obtain ⟨hsame, hbytes⟩ := hinsert (alignSize (alignSize old))
        have hfind : cellocatorFind s1.pages p = none := find_main hinv List.mem_cons_self rfl
        have hplain : freeBlock cfg s1 p (alignSize old) =
            .ok (s1.shrink cfg (insertBlock s1.heap p prev (alignSize (alignSize old))) (alignSize (alignSize old))) := by
          rw [freeBlock, hfind]
          dsimp only
          rw [hprev]
          rfl
        have hfree : freeBlock cfg { s1 with heap := s1.heap.copyTo (some (p', o)) p (alignSize n) } p (alignSize old) =
            .ok (s1.shrink cfg (insertBlock (s1.heap.copyTo (some (p', o)) p (alignSize n)) p prev
              (alignSize (alignSize old))) (alignSize (alignSize old))) := by
          rw [freeBlock, hfind]
          dsimp only
          have hcopied' : findPrev (s1.heap.copyTo (some (p', o)) p (alignSize n)) p = some prev := hcopied
          rw [hcopied']
          rfl
        rw [hfree] at hres'
        cases hres'
        refine ⟨s1.shrink cfg (insertBlock s1.heap p prev (alignSize (alignSize old))) (alignSize (alignSize old)),
          ?_, ⟨rfl, ?_, ?_⟩, ?_⟩
        · show ((freeBlock cfg s1 p (alignSize old)).bind _) = _
          rw [hplain]
          rfl
        · exact (insertBlock_skip _ _ _ _).trans (insertBlock_skip _ _ _ _).symm
        · intro x hx
          refine hsame x ?_
          intro howns
          unfold Block.Owns at hx howns
          rw [hrooms] at howns
          exact hx howns
        · intro i hi
          have hi' : i < alignSize n := Nat.lt_of_lt_of_le (Nat.lt_of_lt_of_le hi (Nat.min_le_right _ _)) hn
          have h8 : 8 ∣ p := hinv.aligned List.mem_cons_self
          have hi'' : i < Block.room ⟨p, old, .main⟩ := Nat.lt_trans hi' hlt
          exact (hbytes i hi').trans (byteAt_framed hframed h8 hi'')
  · rw [if_neg hcell] at hres ⊢
    have hinv : Inv cfg P s (⟨p, old, .main⟩ :: s.live) := h
    obtain ⟨hfits, hsize⟩ := hinv.main_head
    obtain ⟨l, t, hf, hl, ht, hc⟩ := hinv.split
    have hprev := findPrev_block (Nat.zero_lt_of_lt hsize) hfits hf hl ht
    have hres' : ((bounded (findPrev s.heap p)).bind fun prev => .ok (some (p, .main), s.shrink cfg
        (insertBlock s.heap (p + alignSize n) prev (alignSize old - alignSize n)) (alignSize old - alignSize n))) =
      (.ok r : Except Stop (Chunk × State)) := hres
    rw [hprev] at hres'
    cases hres'
    refine ⟨_, ?_, Agrees.refl _ _, ?_⟩
    · rw [hprev]
      rfl
    · intro i hi
      have hi' : i < alignSize n := Nat.lt_of_lt_of_le (Nat.lt_of_lt_of_le hi (Nat.min_le_right _ _)) hn
      have h8 : 8 ∣ p := hfits.addr_aligned
      obtain ⟨h1, h2⟩ := Block.owns_word (b := ⟨p, n, .main⟩) h8 hi'
      have h2' : (p + i) / 8 * 8 < p + alignSize n := h2
      refine byteAt_congr (insertBlock_of_ne ?_ (Nat.ne_of_lt h2'))
      -- the old block is not free
      have hused : Used cfg s (⟨p, old, .main⟩ :: s.live) ((p + i) / 8 * 8) :=
        used_of_owns hinv List.mem_cons_self ⟨h1, Nat.lt_of_lt_of_le h2' (Nat.add_le_add_left (Nat.le_of_lt hlt) p)⟩
          List.mem_cons_self
      refine Outside.ne_lastAddr (t := t) (hused.outside ?_) hf
      intro a
      rw [← hc a, mainRegions_main, coverage_cons]
      exact Nat.le_of_eq (Nat.add_assoc _ _ _).symm

/-- A block that becomes bigger is extended at its end or at its front, or moved. -/
theorem growData_spec (hsizes : Sizes cfg P) (hP : P n) (hold : old ≤ alignSize old) (hlt : alignSize old < alignSize n)
    (h : Holds cfg P [⟨p, old, .main⟩] s) (hres : growData cfg s p old n = .ok r) :
    Delivers ⟨p, old, .main⟩ s.heap.mem n (growBlock cfg s p (alignSize old) n) r := by
  unfold growData at hres
  unfold growBlock
  dsimp only at hres ⊢
  generalize hm : alignSize n - alignSize old = required at hres ⊢
  have hm8 : 8 ∣ required := by
    rw [← hm]
    exact Nat.dvd_sub (alignSize_aligned n) (alignSize_aligned old)
  have hstart : Framed cfg P [⟨p, old, .main⟩] s.heap.mem [] s := ⟨h, fun _ hb x _ => rfl⟩
  have hfirst : Ensures (Excused cfg)
      (if (s.allocatedSize + required) % 2 ^ 64 ≥ s.limit then freeUnusedMemory cfg s .low else .ok s)
      (Framed cfg P [⟨p, old, .main⟩] s.heap.mem []) := by
    split
    · exact (framed_rules cfg P _ _).freeUnusedMemory .low hstart
    · exact ensures_ok hstart
  cases hgc : (if (s.allocatedSize + required) % 2 ^ 64 ≥ s.limit then freeUnusedMemory cfg s .low else .ok s) with
  | error e =>
    rw [hgc] at hres
    cases hres
  | ok s1 =>
    rw [hgc] at hres hfirst
    have hframed : Framed cfg P [⟨p, old, .main⟩] s.heap.mem [] s1 := hfirst
    have hinv : Inv cfg P s1 (⟨p, old, .main⟩ :: s1.live) := hframed.1
    obtain ⟨hfits, hsize⟩ := hinv.main_head
    obtain ⟨l, t, hf, hl, ht, hc⟩ := hinv.split
    have hpos := Nat.zero_lt_of_lt hsize
    have hframe : ∀ q heap, extendBlock s1.heap p (alignSize old) required = some (some (q, heap)) →
        ∀ i, i < old → byteAt heap.mem (p + i) = byteAt s.heap.mem (p + i) := by
      intro q heap hextend i hi
      have hi' : i < Block.room ⟨p, old, .main⟩ := Nat.lt_of_lt_of_le hi hold
      have howns : Block.Owns ⟨p, old, .main⟩ ((p + i) / 8 * 8) := Block.owns_word (b := ⟨p, old, .main⟩) hfits.addr_aligned hi'
      have hused : Used cfg s1 (⟨p, old, .main⟩ :: s1.live) ((p + i) / 8 * 8) :=
        used_of_owns hinv List.mem_cons_self howns List.mem_cons_self
      have hout : Outside (l ++ t) ((p + i) / 8 * 8) := by
        refine hused.outside ?_
        intro a
        rw [← hc a, mainRegions_main, coverage_cons]
        exact Nat.le_of_eq (Nat.add_assoc _ _ _).symm
      exact (byteAt_congr (extendBlock_frame cfg.area_lt hfits hf hl ht hpos hout hextend)).trans
        (byteAt_framed hframed hfits.addr_aligned hi')
    have hspec := extendBlock_spec (n := required) cfg.area_lt hfits hpos (by omega) hm8 hf hl ht
    have hres' : ((bounded (extendBlock s1.heap p (alignSize old) required)).bind fun extended =>
        match extended with
        | some (q, heap) => .ok (some (q, .main),
            s1.grow cfg (if q = p then heap else heap.copyTo (some (q, .main)) p old) required)
        | none => moveData cfg s1 p old n) = .ok r := hres
    show Delivers _ _ _ ((bounded (extendBlock s1.heap p (alignSize old) required)).bind _) r
    cases hspec with
    | inl hnone =>
      rw [hnone] at hres' ⊢
      exact moveData_spec hsizes hP hold hlt hframed hres'
    | inr hsome =>
      obtain ⟨heap, hcases⟩ := hsome
      cases hcases with
      | inl hend =>
        obtain ⟨heq, -⟩ := hend
        rw [heq] at hres' ⊢
        replace hres' : Except.ok (some (p, Origin.main), s1.grow cfg (if p = p then heap else _) required) = Except.ok r :=
          hres'
        rw [if_pos rfl] at hres'
        cases hres'
        exact ⟨_, rfl, Agrees.refl _ _, fun i hi => hframe p heap heq i (Nat.lt_of_lt_of_le hi (Nat.min_le_left _ _))⟩
      | inr hfront =>
        obtain ⟨heq, htaken, hle⟩ := hfront
        rw [heq] at hres' ⊢
        replace hres' : Except.ok (some (p - required, Origin.main), s1.grow cfg (if p - required = p then heap else
            heap.copyTo (some (p - required, .main)) p old) required) = Except.ok r := hres'
        rw [if_neg (by omega)] at hres'
        cases hres'
        have h8 : 8 ∣ p - required := Nat.dvd_sub hfits.addr_aligned hm8
        have hroom : old ≤ Block.room ⟨p - required, n, .main⟩ := by
          show old ≤ alignSize n
          omega
        refine ⟨_, rfl, ⟨rfl, rfl, fun x hx => copyBytes_of_not_owns (b := ⟨p - required, n, .main⟩) h8 hroom hx⟩, ?_⟩
        intro i hi
        have hi' : i < old := Nat.lt_of_lt_of_le hi (Nat.min_le_left _ _)
        exact (byteAt_copied heap.mem (p - required) p hi').trans (hframe (p - required) heap heq i hi')

theorem reallocData_spec (hsizes : Sizes cfg P) (hP : P n) (hn : n ≤ alignSize n) (hold : old ≤ alignSize old)
    (h : Holds cfg P [⟨p, old, o⟩] s) (hres : reallocData cfg s p old n = .ok r) :
    Delivers ⟨p, old, o⟩ s.heap.mem n (reallocBlock cfg s p old n) r := by
  have hinv : Inv cfg P s (⟨p, old, o⟩ :: s.live) := h
  unfold reallocData at hres
  unfold reallocBlock
  dsimp only at hres ⊢
  cases o with
  | cell =>
    obtain ⟨page, hfind⟩ := find_cell hinv List.mem_cons_self rfl
    have hfind' : cellocatorFind s.pages p = some page := hfind
    rw [hfind'] at hres ⊢
    dsimp only at hres ⊢
    by_cases hcell : alignSize n ≤ cellSize
    · rw [if_pos hcell] at hres ⊢
      cases hres
      exact ⟨s, rfl, Agrees.refl _ _, fun _ _ => rfl⟩
    · rw [if_neg hcell] at hres ⊢
      have hspec := (framed_rules cfg P [⟨p, old, .cell⟩] s.heap.mem).allocBlockInternal hsizes
        (fun _ => hsizes.round n hP) (⟨h, fun _ hb x _ => rfl⟩ : Framed cfg P [⟨p, old, .cell⟩] s.heap.mem [] s)
      cases halloc : allocBlockInternal cfg s (alignSize n) with
      | error e =>
        rw [halloc] at hres
        cases hres
      | ok q =>
        obtain ⟨chunk, s1⟩ := q
        rw [halloc] at hres hspec
        cases chunk with
        | none =>
          cases hres
          rfl
        | some c =>
          obtain ⟨p', o'⟩ := c
          cases hres
          have hframed : Framed cfg P [⟨p, old, .cell⟩] s.heap.mem [⟨p', alignSize n, o'⟩] s1 := hspec
          have hnew : Inv cfg P s1 (⟨p', alignSize n, o'⟩ :: ⟨p, old, .cell⟩ :: s1.live) := hframed.1
          have h8 : 8 ∣ p' := hnew.aligned (b := ⟨p', alignSize n, o'⟩) List.mem_cons_self
          have hsmall : alignSize old ≤ cellSize := hinv.cell ⟨p, old, .cell⟩ List.mem_cons_self rfl
          have hroom : alignSize old ≤ Block.room ⟨p', n, o'⟩ := by
            cases o' with
            | main =>
              show alignSize old ≤ alignSize n
              omega
            | cell => exact hsmall
          refine ⟨cellFree s1 p, rfl, ⟨rfl, rfl, ?_⟩, ?_⟩
          · exact fun x hx => copyBytes_of_not_owns (b := ⟨p', n, o'⟩) h8 hroom hx
          · intro i hi
            have hi' : i < alignSize old := Nat.lt_of_lt_of_le (Nat.lt_of_lt_of_le hi (Nat.min_le_left _ _)) hold
            have h8' : 8 ∣ p := hinv.aligned (b := ⟨p, old, .cell⟩) List.mem_cons_self
            have hi'' : i < Block.room ⟨p, old, .cell⟩ := Nat.lt_of_lt_of_le hi' hsmall
            exact (byteAt_copied s1.heap.mem p' p hi').trans (byteAt_framed hframed h8' hi'')
  | main =>
    have hfind : cellocatorFind s.pages p = none := find_main hinv List.mem_cons_self rfl
    rw [hfind] at hres ⊢
    dsimp only at hres ⊢
    by_cases heq : alignSize old = alignSize n
    · rw [if_pos heq] at hres ⊢
      cases hres
      exact ⟨s, rfl, Agrees.refl _ _, fun _ _ => rfl⟩
    · rw [if_neg heq] at hres ⊢
      by_cases hlt : alignSize n < alignSize old
      · rw [if_pos hlt] at hres ⊢
        exact shrinkData_spec hsizes hP hn hlt h hres
      · rw [if_neg hlt] at hres ⊢
        exact growData_spec hsizes hP hold (by omega) h hres

end Jmem
end JJS
