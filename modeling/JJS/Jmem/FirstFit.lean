import JJS.Jmem.Runs

/-!
# JJS.Jmem.FirstFit

`jmem_heap_gc_and_alloc_block` in every reachable state: it gives up only when the bytes are nowhere free in one piece, and
otherwise takes the lowest address at which they are (`alloc_firstFit`).
-/

namespace JJS
namespace Jmem

open FreeList Outcome

variable {cfg : Config} {s : State} {n : Nat}

/-- The bytes lie in the area of the heap, and no page and no block has one of them. -/
def Vacant (cfg : Config) (s : State) (a n : Nat) : Prop :=
  8 ≤ a ∧ a + n ≤ 8 + cfg.areaSize ∧ ∀ x, a ≤ x → x < a + n → coverage (mainBlocks cfg s) x = 0

/-- The lowest address of vacant bytes. -/
def IsFirst (cfg : Config) (s : State) (n : Nat) : Option Nat → Prop
  | none => ∀ a, ¬ Vacant cfg s a n
  | some p => Vacant cfg s p n ∧ ∀ a, Vacant cfg s a n → p ≤ a

theorem vacant_iff {rs : List Region} (hf : FreeChain cfg.areaSize s.heap rs) (hn : 0 < n)
    (hpartition : ∀ x, coverage rs x + coverage (mainBlocks cfg s) x = cover ⟨8, cfg.areaSize⟩ x) (a : Nat) :
    Vacant cfg s a n ↔ ∃ r ∈ rs, r.addr ≤ a ∧ a + n ≤ r.stop := by
  constructor
  · rintro ⟨h1, h2, h3⟩
    refine hf.spaced.inside hn fun x hx hlt => ?_
    have hone := hpartition x
    rw [h3 x hx hlt, cover_inside (by show 8 ≤ x; omega) (by show x < 8 + cfg.areaSize; omega)] at hone
    omega
  · rintro ⟨r, hr, h1, h2⟩
    have hfirst := (hf.fits r hr).first
    have hlast := (hf.fits r hr).last
    refine ⟨by omega, by omega, fun x hx hlt => ?_⟩
    have hone := hpartition x
    have hle := cover_le_coverage hr x
    rw [cover_inside (by omega) (by omega)] at hle
    rw [cover_inside (by show 8 ≤ x; omega) (by show x < 8 + cfg.areaSize; omega)] at hone
    omega

/-! ## Allocations -/

/-- The slow path of `jmem_heap_alloc`. -/
theorem heapAlloc_first (h : Holds cfg (fun _ => True) [] s) (hn : cellSize < alignSize n) (depth : Nat) :
    ∃ chunk s', heapAlloc cfg (depth + 1) s n = .ok (chunk, s') ∧ IsFirst cfg s' (alignSize n) (chunk.map Prod.fst) ∧
      (chunk = none → Holds cfg (fun _ => True) [] s') := by
  obtain ⟨rs, hf, hc⟩ := Inv.free h
  have hvacant := vacant_iff hf (Nat.zero_lt_of_lt hn) fun x => by
    rw [mainBlocks, coverage_append, ← Nat.add_assoc]
    exact hc x
  have hloop := allocLoop_first (n := alignSize n) (l := []) cfg.area_lt _ hf.length_lt hf
  rw [lastAddr] at hloop
  rw [heapAlloc, if_neg (Nat.not_le.mpr hn), allocMain]
  rcases hloop with ⟨hnone, hsmall⟩ | ⟨l, r, t, rfl, hsmall, hbig, hsome⟩
  · rw [hnone]
    refine ⟨none, s, rfl, fun a ha => ?_, fun _ => h⟩
    obtain ⟨r, hr, h1, h2⟩ := (hvacant a).mp ha
    have hlt := hsmall r hr
    rw [Region.stop] at h2
    omega
  · rw [hsome]
    have hfirst : Vacant cfg s r.addr (alignSize n) :=
      (hvacant r.addr).mpr ⟨r, by simp, Nat.le_refl _, Nat.add_le_add_left hbig _⟩
    refine ⟨some (r.addr, .main), _, rfl, ⟨hfirst, fun a ha => ?_⟩, (by cases ·)⟩
    obtain ⟨q, hq, h1, h2⟩ := (hvacant a).mp ha
    rw [Region.stop] at h2
    cases List.mem_append.mp hq with
    | inl hq =>
      have hlt := hsmall q hq
      omega
    | inr hq =>
      cases List.mem_cons.mp hq with
      | inl heq => exact heq ▸ h1
      | inr hq =>
        -- the regions behind the first one that is big enough
        have haddr := ((spaced_append.mp hf.spaced).2.2.2.mem_bounds hq).1
        rw [Region.stop] at haddr
        omega

/-- Each round ends with a search. -/
theorem retryAlloc_first (hn : cellSize < alignSize n) (rounds : Nat) (pressure : Pressure)
    (h : Holds cfg (fun _ => True) [] s) (hnone : IsFirst cfg s (alignSize n) none) :
    Ensures (Excused cfg) (retryAlloc cfg (heapAlloc cfg allocDepth) n rounds pressure s) fun r =>
      IsFirst cfg r.2 (alignSize n) (r.1.map Prod.fst) := by
  induction rounds generalizing s pressure with
  | zero => exact ensures_ok hnone
  | succ rounds ih =>
    refine ((holds_rules cfg _).freeUnusedMemory pressure.next h).bind fun s1 h1 => ?_
    obtain ⟨chunk, s2, heq, hfirst, h2⟩ := heapAlloc_first h1 hn 1
    rw [allocDepth, heq]
    cases chunk with
    | none => exact ih pressure.next (h2 rfl) hfirst
    | some c => exact ensures_ok hfirst

/-- In every reachable state and with any collections, a request for more than a cell gets the lowest address at which its
bytes are vacant, and null only if they are vacant nowhere after the last collection. -/
theorem alloc_firstFit (h : Reachable cfg (fun _ => True) s) (hn : cellSize < alignSize n) (plan : List (List Nat))
    (maxPressure : Pressure) :
    Ensures (Excused cfg) (gcAndAllocBlock cfg (heapAlloc cfg allocDepth) { s with plan := plan } n maxPressure) fun r =>
      IsFirst cfg r.2 (alignSize n) (r.1.map Prod.fst) := by
  have hinv := reachable_holds ⟨trivial, fun _ _ => trivial⟩ (h.mono fun op _ => op.asks_true)
  have hstart : Holds cfg (fun _ => True) [] { s with plan := plan } := Inv.of_eq (s := s) hinv rfl rfl rfl
  have hpos : n ≠ 0 := by
    rintro rfl
    exact absurd hn (by decide)
  rw [gcAndAllocBlock, if_neg hpos]
  dsimp only
  generalize (if (s.allocatedSize + n) % 2 ^ 64 ≥ s.limit then Pressure.low else Pressure.none) = pressure
  have hcollect : Ensures (Excused cfg)
      (if pressure = .low then freeUnusedMemory cfg { s with plan := plan } .low else .ok { s with plan := plan })
      (Holds cfg (fun _ => True) []) := by
    split
    · exact (holds_rules cfg _).freeUnusedMemory .low hstart
    · exact ensures_ok hstart
  refine hcollect.bind fun s1 h1 => ?_
  obtain ⟨chunk, s2, heq, hfirst, h2⟩ := heapAlloc_first h1 hn 1
  rw [allocDepth, heq]
  cases chunk with
  | none => exact retryAlloc_first hn _ pressure (h2 rfl) hfirst
  | some c => exact ensures_ok hfirst

/-- A block of 100 bytes in the heap with 1016. -/
theorem alloc_firstFit_small : Ensures (Excused smallHeap)
    (gcAndAllocBlock smallHeap (heapAlloc smallHeap allocDepth) { State.init smallHeap with plan := [[8]] } 100 .high) fun r =>
      IsFirst smallHeap r.2 104 (r.1.map Prod.fst) :=
  alloc_firstFit Reachable.init (by decide) [[8]] .high

end Jmem
end JJS
