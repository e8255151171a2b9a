import JJS.Lib.FreeList

/-!
# JJS.Jmem.Scratch

The scratch allocator (`jmem-scratch-allocator.c`): a fixed buffer that is handed out from its start, and a fallback
allocator for what does not fit, whose blocks begin with a header and are freed by a reset.

Sizes are numbers of 32 bits and wrap around where a request is rounded and where the header is added. An address is a
number, 0 for a null pointer. The fallback allocator is code of the embedder: it answers a request with null or with
as many bytes, apart from the buffer and from its other blocks.
-/

namespace JJS
namespace Jmem
namespace Scratch

open FreeList

/-- What `jmem_scratch_allocator_init` is given, and the size of a pointer. -/
structure Config where
  fixedBuffer : Nat
  fixedBufferSize : BitVec 32
  pointer64 : Bool
  buffer_pos : fixedBufferSize ≠ 0#32 → 0 < fixedBuffer

/-- `jmem_scratch_allocator_t`; `fallbackAllocations` has the headers from `fallback_allocations` on, each with its
address and its `size`. -/
structure Allocator where
  fixedBuffer : Nat
  fixedBufferSize : BitVec 32
  fixedBufferNext : Nat
  fixedBufferRemainingSize : BitVec 32
  fallbackAllocations : List (Nat × BitVec 32)

/-- `JJS_ALIGNUP (size, JMEM_ALIGNMENT)`. -/
def alignUp (size : BitVec 32) : BitVec 32 := (size + 7#32) &&& ~~~7#32

/-- `JMEM_FALLBACK_ALLOCATION_SIZE`: the header, with a size and a pointer. -/
def fallbackAllocationSize (cfg : Config) : BitVec 32 := if cfg.pointer64 then 16#32 else 8#32

/-- `jmem_scratch_allocator_init`. -/
def init (cfg : Config) : Allocator where
  fixedBuffer := cfg.fixedBuffer
  fixedBufferSize := cfg.fixedBufferSize
  fixedBufferNext := if cfg.fixedBufferSize = 0#32 then 0 else cfg.fixedBuffer
  fixedBufferRemainingSize := cfg.fixedBufferSize
  fallbackAllocations := []

/-- `jmem_scratch_allocator_alloc`, where `fallback` is what the fallback allocator answers to a size: the pointer, the
block that the fallback allocator handed out, and the allocator. -/
def alloc (cfg : Config) (fallback : BitVec 32 → Nat) (a : Allocator) (size : BitVec 32) :
    Nat × Option (Nat × BitVec 32) × Allocator :=
  if size = 0#32 then (0, none, a)
  else
    let requestSize := alignUp size
    if requestSize ≤ a.fixedBufferRemainingSize then
      (a.fixedBufferNext, none,
        { a with
          fixedBufferNext := a.fixedBufferNext + requestSize.toNat
          fixedBufferRemainingSize := a.fixedBufferRemainingSize - requestSize })
    else
      let requestSize := fallbackAllocationSize cfg + size
      let p := fallback requestSize
      if p = 0 then (0, none, a)
      else
        (p + (fallbackAllocationSize cfg).toNat, some (p, requestSize),
          { a with fallbackAllocations := (p, requestSize) :: a.fallbackAllocations })

/-- `jmem_scratch_allocator_reset`: what is freed, in that order, and the allocator. -/
def reset (a : Allocator) : List (Nat × BitVec 32) × Allocator :=
  let a :=
    if a.fixedBufferSize ≠ 0#32 then
      { a with fixedBufferNext := a.fixedBuffer, fixedBufferRemainingSize := a.fixedBufferSize }
    else a
  (a.fallbackAllocations, { a with fallbackAllocations := [] })

/-! ## Runs -/

/-- An allocator, with the bytes it handed out since the last reset and the blocks that the fallback allocator handed
out to it. -/
structure History where
  allocator : Allocator
  handed : List Region
  blocks : List (Nat × BitVec 32)

def blockRegion (b : Nat × BitVec 32) : Region := ⟨b.1, b.2.toNat⟩

def bufferRegion (cfg : Config) : Region := ⟨cfg.fixedBuffer, cfg.fixedBufferSize.toNat⟩

/-- The fallback allocator answers with bytes that are not in use. -/
def Answers (cfg : Config) (h : History) (fallback : BitVec 32 → Nat) : Prop :=
  ∀ requestSize, fallback requestSize ≠ 0 →
    (blockRegion (fallback requestSize, requestSize)).Disjoint (bufferRegion cfg) ∧
      ∀ b ∈ h.blocks, (blockRegion (fallback requestSize, requestSize)).Disjoint (blockRegion b)

def History.alloc (cfg : Config) (fallback : BitVec 32 → Nat) (h : History) (size : BitVec 32) : History :=
  let (p, block, allocator) := Scratch.alloc cfg fallback h.allocator size
  { allocator := allocator
    handed := if p = 0 then h.handed else ⟨p, size.toNat⟩ :: h.handed
    blocks := block.toList ++ h.blocks }

def History.reset (h : History) : History := ⟨(Scratch.reset h.allocator).2, [], []⟩

/-- What is reached by requests of a kind and by resets. -/
inductive Reachable (cfg : Config) (allowed : History → BitVec 32 → Prop) : History → Prop
  | init : Reachable cfg allowed ⟨Scratch.init cfg, [], []⟩
  | alloc {h : History} {fallback : BitVec 32 → Nat} {size : BitVec 32} : Reachable cfg allowed h →
      Answers cfg h fallback → allowed h size → Reachable cfg allowed (h.alloc cfg fallback size)
  | reset {h : History} : Reachable cfg allowed h → Reachable cfg allowed h.reset

/-- `r` lies in a block behind its header. -/
def InBlock (cfg : Config) (r : Region) (b : Nat × BitVec 32) : Prop :=
  b.1 + (fallbackAllocationSize cfg).toNat ≤ r.addr ∧ r.stop ≤ b.1 + b.2.toNat

/-- The bytes that were handed out are there and do not overlap, and a reset gives all of them back. -/
structure Safe (cfg : Config) (h : History) : Prop where
  inside : ∀ r ∈ h.handed,
    (cfg.fixedBuffer ≤ r.addr ∧ r.stop ≤ cfg.fixedBuffer + cfg.fixedBufferSize.toNat) ∨
      ∃ b ∈ h.blocks, InBlock cfg r b
  disjoint : h.handed.Pairwise Region.Disjoint
  freed : (reset h.allocator).1.Perm h.blocks
  whole : (reset h.allocator).2 = init cfg

/-- The request does not wrap around: the header can be added to it, or it can be rounded and fits in the buffer. -/
def NoWrap (cfg : Config) (h : History) (size : BitVec 32) : Prop :=
  size.toNat + (fallbackAllocationSize cfg).toNat < 2 ^ 32 ∨
    size.toNat + 7 < 2 ^ 32 ∧ alignUp size ≤ h.allocator.fixedBufferRemainingSize

/-! ## The invariant -/

structure Inv (cfg : Config) (h : History) : Prop where
  buffer : h.allocator.fixedBuffer = cfg.fixedBuffer ∧ h.allocator.fixedBufferSize = cfg.fixedBufferSize
  used : h.allocator.fixedBufferRemainingSize ≤ cfg.fixedBufferSize ∧
    (cfg.fixedBufferSize ≠ 0#32 → h.allocator.fixedBufferNext + h.allocator.fixedBufferRemainingSize.toNat =
      cfg.fixedBuffer + cfg.fixedBufferSize.toNat) ∧
    (cfg.fixedBufferSize = 0#32 → h.allocator.fixedBufferNext = 0)
  headers : h.allocator.fallbackAllocations = h.blocks
  inside : ∀ r ∈ h.handed,
    (cfg.fixedBuffer ≤ r.addr ∧ r.stop ≤ h.allocator.fixedBufferNext ∧ cfg.fixedBufferSize ≠ 0#32) ∨
      ∃ b ∈ h.blocks, InBlock cfg r b
  disjoint : h.handed.Pairwise Region.Disjoint
  apart : ∀ b ∈ h.blocks, (blockRegion b).Disjoint (bufferRegion cfg)

variable {cfg : Config} {h : History}

theorem seven_bit {i : Nat} (hi : i < 32) : (7#32).getLsbD i = decide (i < 3) := by
  have hall : ∀ i : Fin 32, (7#32).getLsbD i.val = decide (i.val < 3) := by decide
  exact hall ⟨i, hi⟩

theorem mask_eq (x : BitVec 32) : x &&& ~~~7#32 = (x >>> 3) <<< 3 := by
  apply BitVec.eq_of_getLsbD_eq
  intro i hi
  rw [BitVec.getLsbD_and, BitVec.getLsbD_not, seven_bit hi, BitVec.getLsbD_shiftLeft, BitVec.getLsbD_ushiftRight]
  by_cases h3 : i < 3
  · simp [h3]
  · rw [show 3 + (i - 3) = i by omega]
    simp [h3, hi]

theorem alignUp_toNat {size : BitVec 32} (hsize : size.toNat + 7 < 2 ^ 32) :
    (alignUp size).toNat = (size.toNat + 7) / 8 * 8 := by
  have h7 : (7#32 : BitVec 32).toNat = 7 := rfl
  rw [alignUp, mask_eq, BitVec.toNat_shiftLeft, BitVec.toNat_ushiftRight, BitVec.toNat_add, h7,
    Nat.mod_eq_of_lt hsize, Nat.shiftRight_eq_div_pow, Nat.shiftLeft_eq, Nat.mod_eq_of_lt]
  omega

theorem inv_init (cfg : Config) : Inv cfg ⟨init cfg, [], []⟩ where
  buffer := ⟨rfl, rfl⟩
  used := by
    refine ⟨BitVec.le_refl _, ?_, ?_⟩
    · intro hne
      show (if cfg.fixedBufferSize = 0#32 then 0 else cfg.fixedBuffer) + _ = _
      rw [if_neg hne]
      rfl
    · intro hzero
      exact if_pos hzero
  headers := rfl
  inside := fun r hr => absurd hr List.not_mem_nil
  disjoint := List.Pairwise.nil
  apart := fun b hb => absurd hb List.not_mem_nil

theorem reset_eq (hinv : Inv cfg h) : (reset h.allocator).2 = init cfg := by
  obtain ⟨hbuffer, hsize⟩ := hinv.buffer
  obtain ⟨hle, -, hzero⟩ := hinv.used
  rw [reset, init]
  by_cases hne : cfg.fixedBufferSize = 0#32
  · have hremaining : h.allocator.fixedBufferRemainingSize = 0#32 := by
      rw [hne] at hle
      exact BitVec.le_zero_iff.mp hle
    have hnext := hzero hne
    rw [hsize, if_neg (not_not_intro hne), if_pos hne]
    show Allocator.mk h.allocator.fixedBuffer h.allocator.fixedBufferSize h.allocator.fixedBufferNext
      h.allocator.fixedBufferRemainingSize [] = _
    rw [hbuffer, hsize, hnext, hremaining, hne]
  · rw [hsize, if_pos hne, if_neg hne]
    show Allocator.mk h.allocator.fixedBuffer cfg.fixedBufferSize h.allocator.fixedBuffer
      cfg.fixedBufferSize [] = _
    rw [hbuffer]

theorem inv_reset (hinv : Inv cfg h) : Inv cfg h.reset := by
  have hinit : h.reset = ⟨init cfg, [], []⟩ := by rw [History.reset, reset_eq hinv]
  rw [hinit]
  exact inv_init cfg

/-- There is a buffer when a request fits in it. -/
theorem buffer_ne_zero {size : BitVec 32} (hpos : size ≠ 0#32) (hwrap : size.toNat + 7 < 2 ^ 32)
    (hfits : alignUp size ≤ h.allocator.fixedBufferRemainingSize) (hinv : Inv cfg h) : cfg.fixedBufferSize ≠ 0#32 := by
  intro hz
  have haligned := alignUp_toNat hwrap
  have hsize : 0 < size.toNat := Nat.pos_of_ne_zero fun hz => hpos (BitVec.eq_of_toNat_eq hz)
  have hle := BitVec.le_trans hfits hinv.used.1
  rw [hz] at hle
  have hle' : (alignUp size).toNat ≤ 0 := hle
  omega

/-- A request that the buffer can serve. -/
theorem inv_fixed {size : BitVec 32} (hpos : size ≠ 0#32) (hwrap : size.toNat + 7 < 2 ^ 32)
    (hfits : alignUp size ≤ h.allocator.fixedBufferRemainingSize) (hinv : Inv cfg h) :
    Inv cfg ⟨{ h.allocator with
      fixedBufferNext := h.allocator.fixedBufferNext + (alignUp size).toNat
      fixedBufferRemainingSize := h.allocator.fixedBufferRemainingSize - alignUp size },
      ⟨h.allocator.fixedBufferNext, size.toNat⟩ :: h.handed, h.blocks⟩ := by
  obtain ⟨hle, hused, hzero⟩ := hinv.used
  have haligned := alignUp_toNat hwrap
  have hsize : 0 < size.toNat := Nat.pos_of_ne_zero fun hz => hpos (BitVec.eq_of_toNat_eq hz)
  have hfits' : (alignUp size).toNat ≤ h.allocator.fixedBufferRemainingSize.toNat := hfits
  have hle' : h.allocator.fixedBufferRemainingSize.toNat ≤ cfg.fixedBufferSize.toNat := hle
  have hne := buffer_ne_zero hpos hwrap hfits hinv
  have hend := hused hne
  have hsub := BitVec.toNat_sub_of_le hfits
  refine ⟨hinv.buffer, ⟨?_, ?_, fun hz => absurd hz hne⟩, hinv.headers, ?_, ?_, hinv.apart⟩
  · show (h.allocator.fixedBufferRemainingSize - alignUp size).toNat ≤ cfg.fixedBufferSize.toNat
    omega
  · intro _
    show h.allocator.fixedBufferNext + (alignUp size).toNat +
      (h.allocator.fixedBufferRemainingSize - alignUp size).toNat = _
    omega
  · intro r hr
    cases List.mem_cons.mp hr with
    | inl heq =>
      rw [heq]
      refine Or.inl ⟨?_, ?_, hne⟩
      · show cfg.fixedBuffer ≤ h.allocator.fixedBufferNext
        omega
      · show h.allocator.fixedBufferNext + size.toNat ≤ h.allocator.fixedBufferNext + (alignUp size).toNat
        omega
    | inr hin =>
      cases hinv.inside r hin with
      | inl hbuffer => exact Or.inl ⟨hbuffer.1, Nat.le_trans hbuffer.2.1 (Nat.le_add_right _ _), hne⟩
      | inr hblock => exact Or.inr hblock
  · refine List.Pairwise.cons ?_ hinv.disjoint
    intro r hr
    cases hinv.inside r hr with
    | inl hbuffer => exact Or.inr hbuffer.2.1
    | inr hblock =>
      -- the block of `r` is apart from the buffer
      obtain ⟨b, hb, hfrom, hto⟩ := hblock
      have happart : b.1 + b.2.toNat ≤ cfg.fixedBuffer ∨ cfg.fixedBuffer + cfg.fixedBufferSize.toNat ≤ b.1 :=
        hinv.apart b hb
      show h.allocator.fixedBufferNext + size.toNat ≤ r.addr ∨ r.stop ≤ h.allocator.fixedBufferNext
      omega

/-- A request that the fallback allocator serves. -/
theorem inv_fallback {size : BitVec 32} {p : Nat} (hwrap : size.toNat + (fallbackAllocationSize cfg).toNat < 2 ^ 32)
    (hbuffer : (blockRegion (p, fallbackAllocationSize cfg + size)).Disjoint (bufferRegion cfg))
    (hblocks : ∀ b ∈ h.blocks, (blockRegion (p, fallbackAllocationSize cfg + size)).Disjoint (blockRegion b))
    (hinv : Inv cfg h) :
    Inv cfg ⟨{ h.allocator with
      fallbackAllocations := (p, fallbackAllocationSize cfg + size) :: h.allocator.fallbackAllocations },
      ⟨p + (fallbackAllocationSize cfg).toNat, size.toNat⟩ :: h.handed,
      (p, fallbackAllocationSize cfg + size) :: h.blocks⟩ := by
  have hsum : (fallbackAllocationSize cfg + size).toNat = (fallbackAllocationSize cfg).toNat + size.toNat := by
    rw [BitVec.toNat_add, Nat.mod_eq_of_lt (by omega)]
  have hin : InBlock cfg ⟨p + (fallbackAllocationSize cfg).toNat, size.toNat⟩ (p, fallbackAllocationSize cfg + size) := by
    refine ⟨Nat.le_refl _, ?_⟩
    show p + (fallbackAllocationSize cfg).toNat + size.toNat ≤ p + (fallbackAllocationSize cfg + size).toNat
    omega
  refine ⟨hinv.buffer, hinv.used, by rw [hinv.headers], ?_, ?_, ?_⟩
  · intro r hr
    cases List.mem_cons.mp hr with
    | inl heq =>
      rw [heq]
      exact Or.inr ⟨_, List.mem_cons_self, hin⟩
    | inr hold =>
      cases hinv.inside r hold with
      | inl hfixed => exact Or.inl hfixed
      | inr hblock =>
        obtain ⟨b, hb, hr'⟩ := hblock
        exact Or.inr ⟨b, List.mem_cons_of_mem _ hb, hr'⟩
  · refine List.Pairwise.cons ?_ hinv.disjoint
    intro r hr
    show p + (fallbackAllocationSize cfg).toNat + size.toNat ≤ r.addr ∨ r.stop ≤ p + (fallbackAllocationSize cfg).toNat
    cases hinv.inside r hr with
    | inl hfixed =>
      obtain ⟨hle, hused, -⟩ := hinv.used
      have hend := hused hfixed.2.2
      have happart : p + (fallbackAllocationSize cfg + size).toNat ≤ cfg.fixedBuffer ∨
          cfg.fixedBuffer + cfg.fixedBufferSize.toNat ≤ p := hbuffer
      omega
    | inr hblock =>
      obtain ⟨b, hb, hfrom, hto⟩ := hblock
      have happart : p + (fallbackAllocationSize cfg + size).toNat ≤ b.1 ∨ b.1 + b.2.toNat ≤ p := hblocks b hb
      omega
  · intro b hb
    cases List.mem_cons.mp hb with
    | inl heq =>
      rw [heq]
      exact hbuffer
    | inr hold => exact hinv.apart b hold

theorem inv_alloc {fallback : BitVec 32 → Nat} {size : BitVec 32} (hanswers : Answers cfg h fallback)
    (hwrap : NoWrap cfg h size) (hinv : Inv cfg h) : Inv cfg (h.alloc cfg fallback size) := by
  have hheader : 8 ≤ (fallbackAllocationSize cfg).toNat := by
    rw [fallbackAllocationSize]
    split
    · decide
    · decide
  rw [History.alloc, Scratch.alloc]
  by_cases hzero : size = 0#32
  · rw [if_pos hzero]
    exact hinv
  · rw [if_neg hzero]
    dsimp only
    by_cases hfits : alignUp size ≤ h.allocator.fixedBufferRemainingSize
    · rw [if_pos hfits]
      have hround : size.toNat + 7 < 2 ^ 32 := by
        cases hwrap with
        | inl hlt => omega
        | inr hlt => exact hlt.1
      have hfixed := inv_fixed hzero hround hfits hinv
      have hnext : h.allocator.fixedBufferNext ≠ 0 := by
        have hne := buffer_ne_zero hzero hround hfits hinv
        have hpos := cfg.buffer_pos hne
        have hend := hinv.used.2.1 hne
        have hle : h.allocator.fixedBufferRemainingSize.toNat ≤ cfg.fixedBufferSize.toNat := hinv.used.1
        omega
      dsimp only
      rw [if_neg hnext]
      exact hfixed
    · rw [if_neg hfits]
      have hlt : size.toNat + (fallbackAllocationSize cfg).toNat < 2 ^ 32 := by
        cases hwrap with
        | inl hlt => exact hlt
        | inr hlt => exact absurd hlt.2 hfits
      by_cases hp : fallback (fallbackAllocationSize cfg + size) = 0
      · rw [if_pos hp]
        exact hinv
      · rw [if_neg hp]
        obtain ⟨hbuffer, hblocks⟩ := hanswers _ hp
        dsimp only
        rw [if_neg (by omega)]
        exact inv_fallback hlt hbuffer hblocks hinv

theorem safe_of_inv (hinv : Inv cfg h) : Safe cfg h where
  inside := by
    intro r hr
    cases hinv.inside r hr with
    | inl hfixed =>
      obtain ⟨-, hused, -⟩ := hinv.used
      have hend := hused hfixed.2.2
      exact Or.inl ⟨hfixed.1, by omega⟩
    | inr hblock => exact Or.inr hblock
  disjoint := hinv.disjoint
  freed := by
    have hfreed : (reset h.allocator).1 = h.blocks := by
      rw [reset, ← hinv.headers]
      by_cases hne : h.allocator.fixedBufferSize ≠ 0#32
      · rw [if_pos hne]
      · rw [if_neg hne]
    rw [hfreed]
  whole := reset_eq hinv

/-- Every run in which no request wraps around is safe. -/
theorem scratch_safe_when (hreach : Reachable cfg (NoWrap cfg) h) : Safe cfg h := by
  apply safe_of_inv
  induction hreach with
  | init => exact inv_init cfg
  | alloc _ hanswers hwrap ih => exact inv_alloc hanswers hwrap ih
  | reset _ ih => exact inv_reset ih

/-! ## A request that wraps around -/

/-- A buffer of 16 bytes. -/
def smallBuffer : Config where
  fixedBuffer := 64
  fixedBufferSize := 16#32
  pointer64 := true
  buffer_pos := by decide

theorem scratch_safe_small : Safe smallBuffer (History.alloc smallBuffer (fun _ => 1024)
    (History.alloc smallBuffer (fun _ => 0) ⟨init smallBuffer, [], []⟩ 10#32) 100#32) := by
  apply scratch_safe_when
  refine Reachable.alloc (Reachable.alloc Reachable.init ?_ (Or.inl (by decide))) ?_ (Or.inl (by decide))
  · intro requestSize hne
    exact absurd rfl hne
  · intro requestSize _
    refine ⟨Or.inr ?_, ?_⟩
    · show 64 + 16 ≤ 1024
      omega
    · intro b hb
      cases hb

/-- A request for `0xffffffff` bytes is rounded to nothing and gets the start of the buffer. -/
theorem huge_request_unsafe : ¬ ∀ cfg h, Reachable cfg (fun _ _ => True) h → Safe cfg h := by
  intro hall
  have hanswers : Answers smallBuffer ⟨init smallBuffer, [], []⟩ fun _ => 0 := fun _ hne => absurd rfl hne
  have hsafe := hall smallBuffer (History.alloc smallBuffer (fun _ => 0) ⟨init smallBuffer, [], []⟩ 0xffffffff#32)
    (Reachable.alloc Reachable.init hanswers trivial)
  have hhanded : (History.alloc smallBuffer (fun _ => 0) ⟨init smallBuffer, [], []⟩ 0xffffffff#32).handed =
      [⟨64, 4294967295⟩] := by decide
  cases hsafe.inside ⟨64, 4294967295⟩ (by rw [hhanded]; exact List.mem_singleton_self _) with
  | inl hfixed =>
    have hle : 64 + 4294967295 ≤ 64 + 16 := hfixed.2
    omega
  | inr hblock =>
    obtain ⟨b, hb, -⟩ := hblock
    cases hb

end Scratch
end Jmem
end JJS
