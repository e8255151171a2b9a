import JJS.Jmem.Heap

/-!
# JJS.Jmem.Allocator

The two allocators of `jmem`: the main heap of `jmem-heap.c` and the pages of 32 byte cells of
`jmem-cellocator.c`, which are themselves blocks of the main heap.

The garbage collector is a plan: a list with one entry for each call of `ecma_free_unused_memory`, and the entry
names the live blocks that this call frees. The state knows the live blocks for that purpose, and with each the
allocator that produced it.
-/

namespace JJS
namespace Jmem

/-! ## State -/

/-- The context options that the allocators read. `cellCount` is not checked by the code. -/
structure Config where
  areaSize : Nat
  cellCount : UInt32
  gcLimit : Nat
  area_pos : 0 < areaSize
  area_aligned : 8 ∣ areaSize
  area_lt : areaSize + 8 < 2 ^ 32
  gcLimit_pos : 0 < gcLimit

inductive Origin
  | cell
  | main
deriving DecidableEq

/-- A block that was handed out, with the size that was asked for. -/
structure Block where
  ptr : Nat
  size : Nat
  origin : Origin
deriving DecidableEq

/-- `jmem_cellocator_page_t`, with its address. -/
structure Page where
  addr : Nat
  startP : Nat
  endP : Nat

structure State where
  heap : Heap
  pages : List Page
  freeCells : List Nat
  allocatedSize : Nat
  limit : Nat
  live : List Block
  plan : List (List Nat)

/-- Why an operation does not return: `jjs_fatal (JJS_FATAL_OUT_OF_MEMORY)`, or a loop that does not end. -/
inductive Stop
  | outOfMemory
  | endless
deriving DecidableEq

/-- `jmem_pressure_t`. -/
inductive Pressure
  | none
  | low
  | high
  | full
deriving DecidableEq

def Pressure.toNat : Pressure → Nat
  | .none => 0
  | .low => 1
  | .high => 2
  | .full => 3

/-- `pressure++`. -/
def Pressure.next : Pressure → Pressure
  | .none => .low
  | .low => .high
  | .high => .full
  | .full => .full

/-- The rounding of sizes, in `size_t`. -/
def alignSize (size : Nat) : Nat := (size + 7) % 2 ^ 64 / 8 * 8

/-- `JMEM_CELLOCATOR_CELL_SIZE`. -/
def cellSize : Nat := 32

/-- `JMEM_CELLOCATOR_PAGE_HEADER_SIZE`. -/
def pageHeaderSize : Nat := 24

/-- `JMEM_CELLOCATOR_PAGE_SIZE`. The product is computed in 32 bits. -/
def pageSize (cfg : Config) : Nat := pageHeaderSize + (32 * cfg.cellCount).toNat

/-- The context after `jmem_heap_init`. -/
def State.init (cfg : Config) : State where
  heap := Heap.init cfg.areaSize
  pages := []
  freeCells := []
  allocatedSize := 0
  limit := cfg.gcLimit
  live := []
  plan := []

/-! ## Cells -/

/-- `jmem_cellocator_find`. -/
def cellocatorFind (pages : List Page) (chunk : Nat) : Option Page :=
  pages.find? fun p => decide (p.startP ≤ chunk ∧ chunk ≤ p.endP)

/-- `jmem_cellocator_alloc`. -/
def cellocatorAlloc (s : State) : Option Nat × State :=
  match s.freeCells with
  | [] => (none, s)
  | cell :: rest => (some cell, { s with freeCells := rest })

/-- `jmem_cellocator_cell_free`. -/
def cellFree (s : State) (chunk : Nat) : State := { s with freeCells := chunk :: s.freeCells }

/-- The loop of `jmem_cellocator_add_page`. The null case is the bound on the loop. -/
def pushCells (endP : Nat) : Nat → Nat → List Nat → Option (List Nat)
  | 0, _, _ => none
  | fuel + 1, iter, freeCells =>
    if iter ≤ endP then pushCells endP fuel (iter + cellSize) (iter :: freeCells) else some freeCells

/-! ## Freeing -/

/-- `while (allocated_size >= limit) limit += gc_limit`. -/
def raiseLimit (gcLimit allocatedSize : Nat) : Nat → Nat → Nat
  | 0, limit => limit
  | fuel + 1, limit => if allocatedSize ≥ limit then raiseLimit gcLimit allocatedSize fuel (limit + gcLimit) else limit

/-- `while (allocated_size + gc_limit <= limit) limit -= gc_limit`. -/
def lowerLimit (gcLimit allocatedSize : Nat) : Nat → Nat → Nat
  | 0, limit => limit
  | fuel + 1, limit =>
    if allocatedSize + gcLimit ≤ limit then lowerLimit gcLimit allocatedSize fuel (limit - gcLimit) else limit

/-- The heap with `size` more allocated bytes. -/
def State.grow (cfg : Config) (s : State) (heap : Heap) (size : Nat) : State :=
  let allocatedSize := s.allocatedSize + size
  { s with
    heap := heap
    allocatedSize := allocatedSize
    limit := raiseLimit cfg.gcLimit allocatedSize (allocatedSize + 1) s.limit }

/-- The heap with `size` allocated bytes less. -/
def State.shrink (cfg : Config) (s : State) (heap : Heap) (size : Nat) : State :=
  let allocatedSize := s.allocatedSize - size
  { s with
    heap := heap
    allocatedSize := allocatedSize
    limit := lowerLimit cfg.gcLimit allocatedSize (s.limit + 1) s.limit }

/-- A loop with its bound: no result in the bound says that it does not end. -/
def bounded {α : Type} : Option α → Except Stop α
  | none => .error .endless
  | some a => .ok a

/-- `jmem_heap_free_block_internal`. The owner of the block is found by its address. -/
def freeBlock (cfg : Config) (s : State) (ptr size : Nat) : Except Stop State :=
  match cellocatorFind s.pages ptr with
  | some _ => .ok (cellFree s ptr)
  | none =>
    let alignedSize := alignSize size
    (bounded (findPrev s.heap ptr)).bind fun prev =>
      .ok (s.shrink cfg (insertBlock s.heap ptr prev alignedSize) alignedSize)

/-- A collection frees one of the live blocks. -/
def collectBlock (cfg : Config) (s : State) (ptr : Nat) : Except Stop State :=
  match s.live.find? fun b => decide (b.ptr = ptr) with
  | none => .ok s
  | some b => freeBlock cfg { s with live := s.live.erase b } b.ptr b.size

def collectBlocks (cfg : Config) (s : State) : List Nat → Except Stop State
  | [] => .ok s
  | ptr :: ptrs => (collectBlock cfg s ptr).bind fun s => collectBlocks cfg s ptrs

/-- `ecma_free_unused_memory`. -/
def freeUnusedMemory (cfg : Config) (s : State) (pressure : Pressure) : Except Stop State :=
  if pressure = .full then .error .outOfMemory
  else
    match s.plan with
    | [] => .ok s
    | ptrs :: plan => collectBlocks cfg { s with plan := plan } ptrs

/-! ## Allocation -/

/-- What an allocation returns: null, or the address with the allocator that produced the block. -/
abbrev Chunk := Option (Nat × Origin)

/-- The rounds of `jmem_heap_gc_and_alloc_block` after the first one. -/
def retryAlloc (cfg : Config) (alloc : State → Nat → Except Stop (Chunk × State)) (size : Nat) :
    Nat → Pressure → State → Except Stop (Chunk × State)
  | 0, _, s => .ok (none, s)
  | rounds + 1, pressure, s =>
    (freeUnusedMemory cfg s pressure.next).bind fun s =>
      (alloc s size).bind fun (chunk, s) =>
        match chunk with
        | some c => .ok (some c, s)
        | none => retryAlloc cfg alloc size rounds pressure.next s

/-- `jmem_heap_gc_and_alloc_block`. -/
def gcAndAllocBlock (cfg : Config) (alloc : State → Nat → Except Stop (Chunk × State)) (s : State) (size : Nat)
    (maxPressure : Pressure) : Except Stop (Chunk × State) :=
  if size = 0 then .ok (none, s)
  else
    let pressure := if (s.allocatedSize + size) % 2 ^ 64 ≥ s.limit then Pressure.low else Pressure.none
    (if pressure = .low then freeUnusedMemory cfg s .low else .ok s).bind fun s =>
      (alloc s size).bind fun (chunk, s) =>
        match chunk with
        | some c => .ok (some c, s)
        | none => retryAlloc cfg alloc size (maxPressure.toNat - pressure.toNat) pressure s

/-- `jmem_cellocator_add_page`. -/
def addPage (cfg : Config) (alloc : State → Nat → Except Stop (Chunk × State)) (s : State) :
    Except Stop (Bool × State) :=
  (gcAndAllocBlock cfg alloc s (pageSize cfg) .high).bind fun (chunk, s) =>
    match chunk with
    | none => .ok (false, s)
    | some (p, _) =>
      let startP := p + pageHeaderSize
      let endP := startP + (32 * (cfg.cellCount - 1)).toNat
      (bounded (pushCells endP (cfg.cellCount.toNat + 1) startP s.freeCells)).bind fun freeCells =>
        .ok (true, { s with pages := ⟨p, startP, endP⟩ :: s.pages, freeCells := freeCells })

/-- The slow path of `jmem_heap_alloc`. -/
def allocMain (cfg : Config) (s : State) (required : Nat) : Except Stop (Chunk × State) :=
  (bounded (allocLoop s.heap required (cfg.areaSize + 8) 0 (s.heap.mem 0).nextOffset)).bind fun found =>
    match found with
    | none => .ok (none, s)
    | some (p, heap) => .ok (some (p, .main), s.grow cfg heap required)

/-- A cell as the result of an allocation. -/
def takeCell (s : State) : Chunk × State :=
  match cellocatorAlloc s with
  | (none, s) => (none, s)
  | (some cell, s) => (some (cell, .cell), s)

/-- `jmem_heap_alloc`. A new page is allocated by a call of the function itself, so the first argument bounds the
depth of the calls. The path for 8 bytes is left out: such a block is a cell. -/
def heapAlloc (cfg : Config) : Nat → State → Nat → Except Stop (Chunk × State)
  | 0, _, _ => .error .endless
  | depth + 1, s, size =>
    let required := alignSize size
    if required ≤ cellSize then
      match takeCell s with
      | (some c, s) => .ok (some c, s)
      | (none, s) =>
        (freeUnusedMemory cfg s .low).bind fun s =>
          match takeCell s with
          | (some c, s) => .ok (some c, s)
          | (none, s) =>
            (addPage cfg (heapAlloc cfg depth) s).bind fun (added, s) =>
              if added then .ok (takeCell s) else .ok (none, s)
    else allocMain cfg s required

/-- The depth of the calls is at most two, unless a page is as small as a cell. -/
def allocDepth : Nat := 2

/-- `jmem_heap_alloc_block_internal`. -/
def allocBlockInternal (cfg : Config) (s : State) (size : Nat) : Except Stop (Chunk × State) :=
  gcAndAllocBlock cfg (heapAlloc cfg allocDepth) s size .full

/-- `jmem_heap_alloc_block_null_on_error`. -/
def allocBlockNullOnError (cfg : Config) (s : State) (size : Nat) : Except Stop (Chunk × State) :=
  gcAndAllocBlock cfg (heapAlloc cfg allocDepth) s size .high

/-! ## Reallocation -/

/-- The end of `jmem_heap_realloc_block`: a new block, and the old one goes back. -/
def moveBlock (cfg : Config) (s : State) (ptr alignedOldSize newSize : Nat) : Except Stop (Chunk × State) :=
  (allocBlockInternal cfg { s with allocatedSize := s.allocatedSize - alignedOldSize } newSize).bind fun (chunk, s) =>
    (bounded (findPrev s.heap ptr)).bind fun prev =>
      .ok (chunk, { s with heap := insertBlock s.heap ptr prev alignedOldSize })

/-- The part of `jmem_heap_realloc_block` for blocks of the main heap that grow. -/
def growBlock (cfg : Config) (s : State) (ptr alignedOldSize newSize : Nat) : Except Stop (Chunk × State) :=
  let required := alignSize newSize - alignedOldSize
  (if (s.allocatedSize + required) % 2 ^ 64 ≥ s.limit then freeUnusedMemory cfg s .low else .ok s).bind fun s =>
    (bounded (extendBlock s.heap ptr alignedOldSize required)).bind fun extended =>
      match extended with
      | some (p, heap) => .ok (some (p, .main), s.grow cfg heap required)
      | none => moveBlock cfg s ptr alignedOldSize newSize

/-- The part of `jmem_heap_realloc_block` for blocks of the main heap that become smaller. -/
def shrinkBlock (cfg : Config) (s : State) (ptr alignedOldSize alignedNewSize : Nat) :
    Except Stop (Chunk × State) :=
  if alignedNewSize ≤ cellSize then
    (heapAlloc cfg allocDepth s alignedNewSize).bind fun (chunk, s) =>
      (freeBlock cfg s ptr alignedOldSize).bind fun s => .ok (chunk, s)
  else
    (bounded (findPrev s.heap ptr)).bind fun prev =>
      let size := alignedOldSize - alignedNewSize
      .ok (some (ptr, .main), s.shrink cfg (insertBlock s.heap (ptr + alignedNewSize) prev size) size)

/-- `jmem_heap_realloc_block`. -/
def reallocBlock (cfg : Config) (s : State) (ptr oldSize newSize : Nat) : Except Stop (Chunk × State) :=
  let alignedNewSize := alignSize newSize
  let alignedOldSize := alignSize oldSize
  match cellocatorFind s.pages ptr with
  | some _ =>
    if alignedNewSize ≤ cellSize then .ok (some (ptr, .cell), s)
    else
      (allocBlockInternal cfg s alignedNewSize).bind fun (chunk, s) =>
        match chunk with
        | some c => .ok (some c, cellFree s ptr)
        | none => .ok (none, s)
  | none =>
    if alignedOldSize = alignedNewSize then .ok (some (ptr, .main), s)
    else if alignedNewSize < alignedOldSize then shrinkBlock cfg s ptr alignedOldSize alignedNewSize
    else growBlock cfg s ptr alignedOldSize newSize

/-! ## Runs -/

/-- What the engine does with the allocators. An allocation and a reallocation come with the collections that they
start; `write` is the engine writing to its blocks and `fatal` chooses between `jmem_heap_alloc_block` and
`jmem_heap_alloc_block_null_on_error`. -/
inductive Op
  | alloc (fatal : Bool) (size : Nat) (plan : List (List Nat))
  | free (ptr : Nat)
  | realloc (ptr newSize : Nat) (plan : List (List Nat))
  | collect (ptrs : List Nat)
  | write (data : Memory)

/-- The address is in a block of the main heap that is in use. -/
def owned (cfg : Config) (s : State) (x : Nat) : Bool :=
  s.pages.any (fun p => decide (p.addr ≤ x ∧ x < p.addr + pageSize cfg)) ||
    s.live.any fun b => decide (b.origin = .main ∧ b.ptr ≤ x ∧ x < b.ptr + alignSize b.size)

/-- The result of an allocation becomes live. -/
def handOut (size : Nat) : Chunk × State → State
  | (none, s) => s
  | (some (p, origin), s) => { s with live := ⟨p, size, origin⟩ :: s.live }

def step (cfg : Config) (s : State) : Op → Except Stop State
  | .alloc fatal size plan =>
    (if fatal then allocBlockInternal cfg { s with plan := plan } size
      else allocBlockNullOnError cfg { s with plan := plan } size).bind fun r => .ok (handOut size r)
  | .free ptr => collectBlock cfg s ptr
  | .realloc ptr newSize plan =>
    match s.live.find? fun b => decide (b.ptr = ptr) with
    | none => .ok s
    | some b =>
      if newSize = 0 then .ok s
      else
        -- the block is not live for the collector while it is reallocated
        (reallocBlock cfg { s with live := s.live.erase b, plan := plan } b.ptr b.size newSize).bind fun r =>
          .ok (handOut newSize r)
  | .collect ptrs => collectBlocks cfg s ptrs
  | .write data =>
    .ok { s with heap := { s.heap with mem := fun x => if owned cfg s x then data x else s.heap.mem x } }

/-- The states that are reached by operations of a kind. -/
inductive Reachable (cfg : Config) (allowed : Op → Prop) : State → Prop
  | init : Reachable cfg allowed (State.init cfg)
  | step {s s' : State} {op : Op} : Reachable cfg allowed s → allowed op → step cfg s op = .ok s' →
      Reachable cfg allowed s'

end Jmem
end JJS
