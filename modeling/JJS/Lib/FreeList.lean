import Mathlib.Data.List.Basic
import Mathlib.Tactic.Common
import Mathlib.Algebra.GroupWithZero.Nat

/-!
# JJS.Lib.FreeList

Address ranges and lists of free regions. `coverage` counts the regions over an address, so a partition of an
area is a list whose coverage is one inside and zero outside, and an operation that splits and joins regions
keeps it by arithmetic (`cover_split`, `coverage_append`). `Spaced` are the lists of an allocator that merges
what touches: increasing, without empty regions, and with a gap between two regions.

The operations are the ones of a first-fit allocator: taking bytes off the front of a region (`takeFront`) and
putting a region in front of the ones behind it (`pushFront`).
-/

namespace FreeList

structure Region where
  addr : Nat
  size : Nat
deriving DecidableEq

/-- The first address after the region. -/
def Region.stop (r : Region) : Nat := r.addr + r.size

/-! ## Coverage -/

def cover (r : Region) (a : Nat) : Nat := if r.addr ≤ a ∧ a < r.stop then 1 else 0

/-- How many of the regions contain the address. -/
def coverage (rs : List Region) (a : Nat) : Nat := (rs.map fun r => cover r a).sum

@[simp] theorem coverage_nil (a : Nat) : coverage [] a = 0 := rfl

@[simp] theorem coverage_cons (r : Region) (rs : List Region) (a : Nat) :
    coverage (r :: rs) a = cover r a + coverage rs a := by
  simp [coverage]

@[simp] theorem coverage_append (rs ts : List Region) (a : Nat) :
    coverage (rs ++ ts) a = coverage rs a + coverage ts a := by
  simp [coverage]

theorem coverage_perm {rs ts : List Region} (h : rs.Perm ts) (a : Nat) : coverage rs a = coverage ts a :=
  (h.map fun r => cover r a).sum_nat

theorem cover_inside {r : Region} {a : Nat} (h1 : r.addr ≤ a) (h2 : a < r.stop) : cover r a = 1 := if_pos ⟨h1, h2⟩

theorem cover_before {r : Region} {a : Nat} (h : a < r.addr) : cover r a = 0 :=
  if_neg fun hin => Nat.not_le_of_lt h hin.1

theorem cover_behind {r : Region} {a : Nat} (h : r.stop ≤ a) : cover r a = 0 :=
  if_neg fun hin => Nat.not_le_of_lt hin.2 h

theorem cover_split {p s n : Nat} (h : n ≤ s) (a : Nat) :
    cover ⟨p, s⟩ a = cover ⟨p, n⟩ a + cover ⟨p + n, s - n⟩ a := by
  have hstop : (⟨p + n, s - n⟩ : Region).stop = p + s := by
    show p + n + (s - n) = p + s
    omega
  have first : ∀ m, p ≤ a → a < p + m → cover ⟨p, m⟩ a = 1 := fun m h1 h2 => cover_inside h1 h2
  have behind : ∀ m, p + m ≤ a → cover ⟨p, m⟩ a = 0 := fun m h1 => cover_behind h1
  by_cases h1 : a < p
  · rw [cover_before (r := ⟨p, s⟩) h1, cover_before (r := ⟨p, n⟩) h1, cover_before]
    exact Nat.lt_add_right n h1
  by_cases h2 : a < p + n
  · rw [first s (by omega) (by omega), first n (by omega) h2, cover_before h2]
  by_cases h3 : a < p + s
  · rw [first s (by omega) h3, behind n (by omega), cover_inside (Nat.le_of_not_lt h2) (hstop ▸ h3)]
  · rw [behind s (by omega), behind n (by omega), cover_behind (hstop ▸ Nat.le_of_not_lt h3)]

theorem cover_join (p s n : Nat) (a : Nat) : cover ⟨p, s + n⟩ a = cover ⟨p, s⟩ a + cover ⟨p + s, n⟩ a := by
  rw [cover_split (Nat.le_add_right s n), Nat.add_sub_cancel_left]

theorem cover_mono {p n m : Nat} (h : n ≤ m) (a : Nat) : cover ⟨p, n⟩ a ≤ cover ⟨p, m⟩ a := by
  rw [cover_split h a]
  exact Nat.le_add_right _ _

theorem cover_empty (p a : Nat) : cover ⟨p, 0⟩ a = 0 := by
  refine if_neg ?_
  intro hin
  exact Nat.not_le_of_lt hin.2 hin.1

/-- A region in pieces of one size. -/
theorem coverage_pieces (p n k a : Nat) :
    coverage ((List.range k).map fun i => ⟨p + n * i, n⟩) a = cover ⟨p, n * k⟩ a := by
  induction k with
  | zero => exact (cover_empty p a).symm
  | succ k ih =>
    rw [List.range_succ, List.map_append, coverage_append, ih, Nat.mul_succ, cover_join]
    simp

theorem cover_pos_iff {r : Region} {a : Nat} : 0 < cover r a ↔ r.addr ≤ a ∧ a < r.stop := by
  unfold cover
  split
  · rename_i h
    exact iff_of_true Nat.one_pos h
  · rename_i h
    exact iff_of_false (Nat.lt_irrefl 0) h

/-- A region of a list is counted. -/
theorem cover_le_coverage {r : Region} {rs : List Region} (h : r ∈ rs) (a : Nat) : cover r a ≤ coverage rs a := by
  obtain ⟨l, t, rfl⟩ := List.append_of_mem h
  rw [coverage_append, coverage_cons]
  omega

def Region.Disjoint (r s : Region) : Prop := r.stop ≤ s.addr ∨ s.stop ≤ r.addr

/-- Two regions that are never counted together do not overlap. -/
theorem disjoint_of_cover {r s : Region} (hr : 0 < r.size) (hs : 0 < s.size)
    (h : ∀ a, cover r a + cover s a ≤ 1) : r.Disjoint s := by
  by_contra hno
  unfold Region.Disjoint Region.stop at hno
  have hmax := h (max r.addr s.addr)
  have h1 : 0 < cover r (max r.addr s.addr) := cover_pos_iff.mpr ⟨by omega, by unfold Region.stop; omega⟩
  have h2 : 0 < cover s (max r.addr s.addr) := cover_pos_iff.mpr ⟨by omega, by unfold Region.stop; omega⟩
  omega

/-- Regions that nowhere count twice are disjoint. -/
theorem pairwise_disjoint {rs : List Region} (hpos : ∀ r ∈ rs, 0 < r.size) (h : ∀ a, coverage rs a ≤ 1) :
    rs.Pairwise Region.Disjoint := by
  induction rs with
  | nil => exact List.Pairwise.nil
  | cons r rs ih =>
    have htail : ∀ a, coverage rs a ≤ 1 := by
      intro a
      have := h a
      rw [coverage_cons] at this
      omega
    refine List.Pairwise.cons ?_ (ih (fun s hs => hpos s (List.mem_cons_of_mem r hs)) htail)
    intro s hs
    refine disjoint_of_cover (hpos r List.mem_cons_self) (hpos s (List.mem_cons_of_mem r hs)) ?_
    intro a
    have h1 := h a
    have h2 := cover_le_coverage hs a
    rw [coverage_cons] at h1
    omega

theorem exists_of_coverage {rs : List Region} {a : Nat} (h : 0 < coverage rs a) : ∃ r ∈ rs, r.addr ≤ a ∧ a < r.stop := by
  induction rs with
  | nil => exact absurd h (Nat.lt_irrefl 0)
  | cons r rs ih =>
    rw [coverage_cons] at h
    by_cases hr : 0 < cover r a
    · exact ⟨r, List.mem_cons_self, cover_pos_iff.mp hr⟩
    · obtain ⟨q, hq, hin⟩ := ih (by omega)
      exact ⟨q, List.mem_cons_of_mem r hq, hin⟩

/-- Two regions of a list that both contain an address are counted twice. -/
theorem two_le_coverage {q r : Region} {rs : List Region} {a : Nat} (hq : q ∈ rs) (hr : r ∈ rs) (hne : q ≠ r)
    (hqa : q.addr ≤ a ∧ a < q.stop) (hra : r.addr ≤ a ∧ a < r.stop) : 2 ≤ coverage rs a := by
  obtain ⟨l, t, rfl⟩ := List.append_of_mem hq
  have hrest : r ∈ l ++ t := by
    cases List.mem_append.mp hr with
    | inl hl => exact List.mem_append_left t hl
    | inr ht =>
      cases List.mem_cons.mp ht with
      | inl heq => exact absurd heq.symm hne
      | inr hin => exact List.mem_append_right l hin
  have hle := cover_le_coverage hrest a
  have h1 : cover q a = 1 := cover_inside hqa.1 hqa.2
  have h2 : cover r a = 1 := cover_inside hra.1 hra.2
  rw [coverage_append] at hle
  rw [coverage_append, coverage_cons]
  omega

/-- Regions of aligned sizes that cover an aligned area once are aligned: each begins where the area or another region
does or ends. -/
theorem aligned_of_partition {d : Nat} {rs : List Region} {area : Region} (hpos : ∀ r ∈ rs, 0 < r.size)
    (hsize : ∀ r ∈ rs, d ∣ r.size) (harea : d ∣ area.addr) (h : ∀ a, coverage rs a = cover area a) {r : Region}
    (hr : r ∈ rs) : d ∣ r.addr := by
  generalize haddr : r.addr = u
  induction u using Nat.strongRecOn generalizing r with
  | ind u ih =>
    have hrpos := hpos r hr
    have hrin : r.addr ≤ u ∧ u < r.stop := ⟨Nat.le_of_eq haddr, haddr ▸ Nat.lt_add_of_pos_right hrpos⟩
    have hone : cover r u = 1 := cover_inside hrin.1 hrin.2
    have hle := cover_le_coverage hr u
    rw [h u, hone] at hle
    obtain ⟨hfirst, hlast⟩ := cover_pos_iff.mp hle
    by_cases hstart : area.addr = u
    · exact hstart ▸ harea
    · -- the region over the byte in front ends here
      have hbefore : 0 < coverage rs (u - 1) := by
        rw [h]
        exact cover_pos_iff.mpr ⟨by omega, by omega⟩
      obtain ⟨q, hq, hq1, hq2⟩ := exists_of_coverage hbefore
      have hqlt : q.addr < u := by omega
      have hstop : q.stop = u := by
        by_contra hno
        have hne : q ≠ r := by
          intro heq
          rw [heq] at hqlt
          omega
        have htwo := two_le_coverage hq hr hne ⟨Nat.le_of_lt hqlt, by omega⟩ hrin
        have hmax : cover area u ≤ 1 := by
          unfold cover
          split <;> omega
        rw [h u] at htwo
        omega
      rw [← hstop]
      exact Nat.dvd_add (ih q.addr hqlt hq rfl) (hsize q hq)

/-! ## Lists of free regions -/

/-- Regions after `e`, each with a gap before it. -/
def Spaced (e : Nat) : List Region → Prop
  | [] => True
  | r :: rs => e < r.addr ∧ 0 < r.size ∧ Spaced r.stop rs

/-- Where the last region ends. -/
def lastStop (e : Nat) : List Region → Nat
  | [] => e
  | r :: rs => lastStop r.stop rs

/-- Where the last region begins. -/
def lastAddr (p : Nat) : List Region → Nat
  | [] => p
  | r :: rs => lastAddr r.addr rs

theorem lastStop_append (e : Nat) (l t : List Region) : lastStop e (l ++ t) = lastStop (lastStop e l) t := by
  induction l generalizing e with
  | nil => rfl
  | cons r l ih => exact ih r.stop

theorem lastAddr_append (p : Nat) (l t : List Region) : lastAddr p (l ++ t) = lastAddr (lastAddr p l) t := by
  induction l generalizing p with
  | nil => rfl
  | cons r l ih => exact ih r.addr

theorem spaced_append {e : Nat} {l t : List Region} : Spaced e (l ++ t) ↔ Spaced e l ∧ Spaced (lastStop e l) t := by
  induction l generalizing e with
  | nil => simp [Spaced, lastStop]
  | cons r l ih =>
    simp only [List.cons_append, Spaced, lastStop, ih, and_assoc]

theorem Spaced.lastAddr_le {e p : Nat} {l : List Region} (hp : p ≤ e) (h : Spaced e l) :
    p ≤ lastAddr p l ∧ lastAddr p l ≤ lastStop e l := by
  induction l generalizing e p with
  | nil => exact ⟨Nat.le_refl p, hp⟩
  | cons r l ih =>
    obtain ⟨h1, h2, h3⟩ := h
    have hrec := ih (show r.addr ≤ r.stop from Nat.le_add_right _ _) h3
    simp only [lastAddr, lastStop]
    omega

theorem Spaced.mem_bounds {e : Nat} {l : List Region} (h : Spaced e l) {r : Region} (hr : r ∈ l) :
    e < r.addr ∧ 0 < r.size ∧ r.stop ≤ lastStop e l := by
  induction l generalizing e with
  | nil => cases hr
  | cons s l ih =>
    obtain ⟨h1, h2, h3⟩ := h
    cases List.mem_cons.mp hr with
    | inl heq =>
      rw [heq]
      refine ⟨h1, h2, ?_⟩
      have hle := h3.lastAddr_le (Nat.le_refl s.stop)
      simp only [lastStop]
      omega
    | inr hmem =>
      obtain ⟨g1, g2, g3⟩ := ih h3 hmem
      refine ⟨?_, g2, g3⟩
      have : s.addr ≤ s.stop := Nat.le_add_right _ _
      omega

/-- The addresses bound the number of regions. -/
theorem Spaced.length_le {e p : Nat} {l : List Region} (hp : p ≤ e) (h : Spaced e l) : p + l.length ≤ lastAddr p l := by
  induction l generalizing e p with
  | nil => exact Nat.le_refl p
  | cons r l ih =>
    obtain ⟨h1, h2, h3⟩ := h
    have hrec := ih (show r.addr ≤ r.stop from Nat.le_add_right _ _) h3
    simp only [lastAddr, List.length_cons]
    omega

/-- The place of an address in the list. -/
theorem Spaced.split {e : Nat} {rs : List Region} (h : Spaced e rs) (b : Nat) :
    ∃ l t, rs = l ++ t ∧ (∀ r ∈ l, r.addr < b) ∧ ∀ r ∈ t, b ≤ r.addr := by
  induction rs generalizing e with
  | nil => exact ⟨[], [], rfl, by simp, by simp⟩
  | cons r rs ih =>
    obtain ⟨-, -, h3⟩ := h
    by_cases hr : r.addr < b
    · obtain ⟨l, t, heq, hl, ht⟩ := ih h3
      refine ⟨r :: l, t, by rw [heq, List.cons_append], ?_, ht⟩
      intro s hs
      cases List.mem_cons.mp hs with
      | inl hsr => rw [hsr]; exact hr
      | inr hsl => exact hl s hsl
    · refine ⟨[], r :: rs, rfl, by simp, ?_⟩
      intro s hs
      cases List.mem_cons.mp hs with
      | inl hsr => rw [hsr]; omega
      | inr hsl =>
        have := (h3.mem_bounds hsl).1
        have : r.addr ≤ r.stop := Nat.le_add_right _ _
        omega

/-- The place of a range that the list does not cover. -/
theorem Spaced.split_free {e b n : Nat} {rs : List Region} (h : Spaced e rs) (hn : 0 < n)
    (hfree : ∀ a, b ≤ a → a < b + n → coverage rs a = 0) :
    ∃ l t, rs = l ++ t ∧ (∀ r ∈ l, r.stop ≤ b) ∧ ∀ r ∈ t, b + n ≤ r.addr := by
  obtain ⟨l, t, heq, hl, ht⟩ := h.split b
  have hzero : ∀ r ∈ rs, ∀ a, b ≤ a → a < b + n → ¬ (r.addr ≤ a ∧ a < r.stop) := by
    intro r hr a h1 h2 hin
    have hle := cover_le_coverage hr a
    rw [hfree a h1 h2, cover_inside hin.1 hin.2] at hle
    omega
  refine ⟨l, t, heq, ?_, ?_⟩
  · intro r hr
    have haddr := hl r hr
    have hno := hzero r (by rw [heq]; exact List.mem_append_left t hr) b (Nat.le_refl b) (by omega)
    omega
  · intro r hr
    have haddr := ht r hr
    have hrs : r ∈ rs := by rw [heq]; exact List.mem_append_right l hr
    have hpos := (h.mem_bounds hrs).2.1
    by_contra hlt
    refine hzero r hrs r.addr haddr (by omega) ⟨Nat.le_refl _, ?_⟩
    simp only [Region.stop]
    omega

/-- Bytes that are all covered lie in one region, since there is a gap before the next. -/
theorem Spaced.inside {e a : Nat} {rs : List Region} (h : Spaced e rs) (hn : 0 < n)
    (hcover : ∀ x, a ≤ x → x < a + n → 0 < coverage rs x) : ∃ r ∈ rs, r.addr ≤ a ∧ a + n ≤ r.stop := by
  obtain ⟨r, hr, h1, h2⟩ := exists_of_coverage (hcover a (Nat.le_refl a) (by omega))
  refine ⟨r, hr, h1, ?_⟩
  by_contra hlt
  obtain ⟨q, hq, h3, h4⟩ := exists_of_coverage (hcover r.stop (by omega) (by omega))
  obtain ⟨l, t, rfl⟩ := List.append_of_mem hr
  obtain ⟨hl, hlast, -, ht⟩ := spaced_append.mp h
  cases List.mem_append.mp hq with
  | inl hq =>
    have hstop := (hl.mem_bounds hq).2.2
    omega
  | inr hq =>
    cases List.mem_cons.mp hq with
    | inl heq =>
      rw [heq] at h4
      omega
    | inr hq =>
      have haddr := (ht.mem_bounds hq).1
      omega

/-- The regions after a place in the list begin behind it. -/
theorem Spaced.mono {e e' : Nat} {l : List Region} (he : e' ≤ e) (h : Spaced e l) : Spaced e' l := by
  cases l with
  | nil => trivial
  | cons r l => exact ⟨Nat.lt_of_le_of_lt he h.1, h.2⟩

theorem lastAddr_cases (p : Nat) (l : List Region) :
    l = [] ∧ lastAddr p l = p ∨ ∃ l' r, l = l' ++ [r] ∧ lastAddr p l = r.addr := by
  cases List.eq_nil_or_concat l with
  | inl h => exact Or.inl ⟨h, by rw [h]; rfl⟩
  | inr h =>
    obtain ⟨l', r, h⟩ := h
    rw [List.concat_eq_append] at h
    exact Or.inr ⟨l', r, h, by rw [h, lastAddr_append]; rfl⟩

/-! ## Taking bytes off a region -/

/-- What is left of a region when its first `n` bytes are taken. -/
def takeFront (r : Region) (n : Nat) : List Region :=
  if n < r.size then [⟨r.addr + n, r.size - n⟩] else []

theorem coverage_takeFront {r : Region} {n : Nat} (h : n ≤ r.size) (a : Nat) :
    cover r a = cover ⟨r.addr, n⟩ a + coverage (takeFront r n) a := by
  unfold takeFront
  split
  · rw [coverage_cons, coverage_nil, Nat.add_zero]
    exact cover_split h a
  · have hn : n = r.size := by omega
    rw [coverage_nil, Nat.add_zero, hn]

theorem spaced_takeFront {e n : Nat} {r : Region} {l t : List Region} (hn : n ≤ r.size) (h : Spaced e (l ++ r :: t)) :
    Spaced e (l ++ (takeFront r n ++ t)) := by
  rw [spaced_append] at h ⊢
  obtain ⟨hl, h1, h2, ht⟩ := h
  refine ⟨hl, ?_⟩
  unfold takeFront
  split
  · rename_i hlt
    have hstop : (⟨r.addr + n, r.size - n⟩ : Region).stop = r.stop := by
      simp only [Region.stop]
      omega
    refine ⟨?_, ?_, ?_⟩
    · show lastStop e l < r.addr + n
      omega
    · show 0 < r.size - n
      omega
    · rw [hstop]
      exact ht
  · have hle : lastStop e l ≤ r.stop := by
      unfold Region.stop
      omega
    exact ht.mono hle

/-! ## Inserting a region -/

/-- The region in front of the list, joined with the first one when they touch. -/
def pushFront (r : Region) : List Region → List Region
  | [] => [r]
  | n :: t => if r.stop = n.addr then ⟨r.addr, r.size + n.size⟩ :: t else r :: n :: t

theorem coverage_pushFront (r : Region) (t : List Region) (a : Nat) :
    coverage (pushFront r t) a = cover r a + coverage t a := by
  cases t with
  | nil => simp [pushFront]
  | cons n t =>
    rw [pushFront]
    split
    · rename_i h
      have hjoin := cover_join r.addr r.size n.size a
      have haddr : r.addr + r.size = n.addr := h
      rw [haddr] at hjoin
      rw [coverage_cons, coverage_cons, hjoin, Nat.add_assoc]
    · simp

/-- The region is still there, perhaps longer. -/
theorem exists_mem_pushFront (r : Region) (t : List Region) : ∃ s ∈ pushFront r t, s.addr = r.addr := by
  cases t with
  | nil => exact ⟨r, List.mem_singleton.mpr rfl, rfl⟩
  | cons n t =>
    rw [pushFront]
    split
    · exact ⟨_, List.mem_cons_self, rfl⟩
    · exact ⟨r, List.mem_cons_self, rfl⟩

theorem spaced_pushFront {e : Nat} {r : Region} {t : List Region} (he : e < r.addr) (hr : 0 < r.size)
    (ht : Spaced e t) (hstop : ∀ n ∈ t.head?, r.stop ≤ n.addr) : Spaced e (pushFront r t) := by
  cases t with
  | nil => exact ⟨he, hr, trivial⟩
  | cons n t =>
    have hle : r.stop ≤ n.addr := hstop n rfl
    obtain ⟨-, hn, ht⟩ := ht
    rw [pushFront]
    split
    · rename_i h
      refine ⟨he, ?_, ?_⟩
      · show 0 < r.size + n.size
        omega
      · have hjoin : (⟨r.addr, r.size + n.size⟩ : Region).stop = n.stop := by
          simp only [Region.stop] at h ⊢
          omega
        rw [hjoin]
        exact ht
    · rename_i h
      exact ⟨he, hr, Nat.lt_of_le_of_ne hle h, hn, ht⟩

end FreeList
