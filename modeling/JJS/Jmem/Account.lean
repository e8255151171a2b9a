import JJS.Jmem.Runs

/-!
# JJS.Jmem.Account

The two counters of the main heap, `jmem_heap_allocated_size` and `jmem_heap_limit`. In every reachable state the first
is the sum of the rounded sizes of the blocks in use, and the second is a multiple of the step of the collector that is
neither below the first nor more than a step above it (`heap_accounting`).

While a block is moved, its size is already subtracted but the limit is not adjusted; `Account` has a slack for that,
and the new block pays for it.
-/

namespace JJS
namespace Jmem

open FreeList Outcome

/-! ## The loops -/

section

variable {gcLimit allocatedSize : Nat}

/-- The loop ends above the size. It only goes more than a step above it when it does nothing. -/
theorem raiseLimit_spec (hgc : 0 < gcLimit) (fuel limit : Nat) (hfuel : allocatedSize < limit + fuel) :
    allocatedSize < raiseLimit gcLimit allocatedSize fuel limit ∧
      (gcLimit ∣ limit → gcLimit ∣ raiseLimit gcLimit allocatedSize fuel limit) ∧
      (raiseLimit gcLimit allocatedSize fuel limit = limit ∨
        raiseLimit gcLimit allocatedSize fuel limit ≤ allocatedSize + gcLimit) := by
  induction fuel generalizing limit with
  | zero => exact ⟨hfuel, id, Or.inl rfl⟩
  | succ fuel ih =>
    rw [raiseLimit]
    by_cases hlow : allocatedSize ≥ limit
    · rw [if_pos hlow]
      obtain ⟨h1, h2, h3⟩ := ih (limit + gcLimit) (by omega)
      refine ⟨h1, fun hdvd => h2 (Nat.dvd_add hdvd (Nat.dvd_refl gcLimit)), Or.inr ?_⟩
      cases h3 with
      | inl heq => rw [heq]; omega
      | inr hle => exact hle
    · rw [if_neg hlow]
      exact ⟨Nat.lt_of_not_le hlow, id, Or.inl rfl⟩

/-- The loop ends less than a step above the size, and not below it. -/
theorem lowerLimit_spec (hgc : 0 < gcLimit) (fuel limit : Nat) (hfuel : limit < fuel) :
    lowerLimit gcLimit allocatedSize fuel limit < allocatedSize + gcLimit ∧
      (gcLimit ∣ limit → gcLimit ∣ lowerLimit gcLimit allocatedSize fuel limit) ∧
      (allocatedSize ≤ limit → allocatedSize ≤ lowerLimit gcLimit allocatedSize fuel limit) := by
  induction fuel generalizing limit with
  | zero => exact absurd hfuel (Nat.not_lt_zero limit)
  | succ fuel ih =>
    rw [lowerLimit]
    by_cases hhigh : allocatedSize + gcLimit ≤ limit
    · rw [if_pos hhigh]
      obtain ⟨h1, h2, h3⟩ := ih (limit - gcLimit) (by omega)
      exact ⟨h1, fun hdvd => h2 (Nat.dvd_sub hdvd (Nat.dvd_refl gcLimit)), fun _ => h3 (by omega)⟩
    · rw [if_neg hhigh]
      exact ⟨Nat.lt_of_not_le hhigh, id, id⟩

end

/-! ## The counters -/

def totalSize (rs : List Region) : Nat := (rs.map Region.size).sum

@[simp] theorem totalSize_nil : totalSize [] = 0 := rfl

@[simp] theorem totalSize_cons (r : Region) (rs : List Region) : totalSize (r :: rs) = r.size + totalSize rs :=
  List.sum_cons

theorem totalSize_append (l t : List Region) : totalSize (l ++ t) = totalSize l + totalSize t := by
  rw [totalSize, List.map_append, List.sum_append]
  rfl

theorem totalSize_perm {l t : List Region} (h : l.Perm t) : totalSize l = totalSize t := (h.map Region.size).sum_nat

theorem totalSize_sublist {l t : List Region} (h : l.Sublist t) : totalSize l ≤ totalSize t := by
  induction h with
  | slnil => exact Nat.le_refl 0
  | cons r _ ih => rw [totalSize_cons]; omega
  | cons_cons r _ ih => rw [totalSize_cons, totalSize_cons]; omega

structure Account (cfg : Config) (slack : Nat) (s : State) (bs : List Block) : Prop where
  sum : s.allocatedSize = totalSize (s.pages.map (Page.region cfg)) + totalSize (mainRegions bs)
  multiple : cfg.gcLimit ∣ s.limit
  low : s.allocatedSize ≤ s.limit
  high : s.limit ≤ s.allocatedSize + slack + cfg.gcLimit

variable {cfg : Config} {P : Nat → Prop} {s s' : State} {bs bs' : List Block} {slack n : Nat}

theorem account_init (cfg : Config) : Account cfg 0 (State.init cfg) [] where
  sum := rfl
  multiple := Nat.dvd_refl cfg.gcLimit
  low := Nat.zero_le _
  high := Nat.le_of_eq (Nat.zero_add _).symm

namespace Account

theorem perm (hp : bs.Perm bs') (h : Account cfg slack s bs) : Account cfg slack s bs' where
  sum := by
    have hmain : totalSize (mainRegions bs') = totalSize (mainRegions bs) := totalSize_perm ((hp.symm.filter _).map _)
    rw [hmain]
    exact h.sum
  multiple := h.multiple
  low := h.low
  high := h.high

/-- The counters and the pages are all that matters. -/
theorem of_eq (h : Account cfg slack s bs) (h1 : s'.allocatedSize = s.allocatedSize) (h2 : s'.limit = s.limit)
    (h3 : s'.pages = s.pages) : Account cfg slack s' bs where
  sum := by
    rw [h1, h3]
    exact h.sum
  multiple := by
    rw [h2]
    exact h.multiple
  low := by
    rw [h1, h2]
    exact h.low
  high := by
    rw [h1, h2]
    exact h.high

theorem main_le {p : Nat} (h : Account cfg slack s (⟨p, n, .main⟩ :: bs)) : alignSize n ≤ s.allocatedSize := by
  have hsum := h.sum
  rw [mainRegions_main, totalSize_cons] at hsum
  have hsize : alignSize n ≤ alignSize n + totalSize (mainRegions bs) := Nat.le_add_right _ _
  exact Nat.le_trans hsize (by rw [hsum]; exact Nat.le_add_left _ _)

/-- Only the bytes of the main heap count. -/
theorem of_total (h : Account cfg slack s bs) (hsum : totalSize (mainRegions bs') = totalSize (mainRegions bs)) :
    Account cfg slack s bs' where
  sum := by
    rw [hsum]
    exact h.sum
  multiple := h.multiple
  low := h.low
  high := h.high

/-- A block of the main heap gives bytes back: all of it, or its end. -/
theorem shrink {size : Nat} (heap : Heap) (h : Account cfg slack s bs)
    (hsum : totalSize (mainRegions bs) = totalSize (mainRegions bs') + size) :
    Account cfg slack (s.shrink cfg heap size) bs' := by
  have htotal := h.sum
  have hlow := h.low
  obtain ⟨h1, h2, h3⟩ := @lowerLimit_spec cfg.gcLimit (s.allocatedSize - size) cfg.gcLimit_pos (s.limit + 1) s.limit
    (Nat.lt_succ_self s.limit)
  refine ⟨?_, h2 h.multiple, h3 (by omega), ?_⟩
  · show s.allocatedSize - size = _
    rw [htotal, hsum]
    show _ = totalSize (s.pages.map (Page.region cfg)) + _
    omega
  · show lowerLimit _ _ _ _ ≤ s.allocatedSize - size + slack + cfg.gcLimit
    omega

/-- A block of the main heap gets more bytes, or there is a new one. -/
theorem grow {size : Nat} (heap : Heap) (h : Account cfg slack s bs)
    (hsum : totalSize (mainRegions bs') = totalSize (mainRegions bs) + size) :
    Account cfg (slack - size) (s.grow cfg heap size) bs' := by
  have htotal := h.sum
  have hhigh := h.high
  obtain ⟨h1, h2, h3⟩ := @raiseLimit_spec cfg.gcLimit (s.allocatedSize + size) cfg.gcLimit_pos
    (s.allocatedSize + size + 1) s.limit (by omega)
  refine ⟨?_, h2 h.multiple, Nat.le_of_lt h1, ?_⟩
  · show s.allocatedSize + size = totalSize (s.pages.map (Page.region cfg)) + _
    omega
  · show raiseLimit _ _ _ _ ≤ s.allocatedSize + size + (slack - size) + cfg.gcLimit
    cases h3 with
    | inl heq => rw [heq]; omega
    | inr hle => omega

end Account

/-! ## Allocations -/

/-- A block of another size that is rounded to the same one. -/
theorem totalSize_resize {p m : Nat} (o : Origin) (hm : alignSize m = alignSize n) :
    totalSize (mainRegions (⟨p, m, o⟩ :: bs)) = totalSize (mainRegions (⟨p, n, o⟩ :: bs)) := by
  cases o with
  | cell => rfl
  | main => rw [mainRegions_main, mainRegions_main, hm]

theorem freeBlock_account {p m : Nat} {o : Origin} (hm : alignSize m = alignSize n) (h : Inv cfg P s (⟨p, n, o⟩ :: bs))
    (ha : Account cfg slack s (⟨p, n, o⟩ :: bs')) :
    Ensures (Excused cfg) (freeBlock cfg s p m) fun s' => Account cfg slack s' bs' := by
  unfold freeBlock
  cases o with
  | cell =>
    obtain ⟨page, hfind⟩ := find_cell h List.mem_cons_self rfl
    rw [hfind]
    have hdrop : Account cfg slack s bs' := ha.of_total rfl
    exact ensures_ok (hdrop.of_eq rfl rfl rfl)
  | main =>
    rw [find_main h List.mem_cons_self rfl]
    obtain ⟨prev, hprev, -⟩ := giveBack h
    rw [hm]
    refine (bounded_eq hprev).bind ?_
    intro q hq
    refine ensures_ok (ha.shrink _ ?_)
    rw [mainRegions_main, totalSize_cons, Nat.add_comm]

/-- The invariant with the counters. The blocks `base` are not counted, and the ones that were allocated since pay for
the slack. -/
def Kept (cfg : Config) (P : Nat → Prop) (base : List Block) (slack : Nat) (held : List Block) (s : State) : Prop :=
  Holds cfg P (held ++ base) s ∧ Account cfg (slack - totalSize (mainRegions held)) s (held ++ s.live)

theorem kept_rules (cfg : Config) (P : Nat → Prop) (base : List Block) (slack : Nat) :
    Rules cfg P (Kept cfg P base slack) where
  plan := fun held s plan h => ⟨(holds_rules cfg P).plan (held ++ base) s plan h.1, h.2.of_eq rfl rfl rfl⟩
  free := by
    intro held s b hb h
    obtain ⟨hinv, ha⟩ := h
    have hperm : (held ++ base ++ s.live).Perm (b :: (held ++ base ++ s.live.erase b)) :=
      ((List.perm_cons_erase hb).append_left (held ++ base)).trans List.perm_middle
    have hperm' : (held ++ s.live).Perm (b :: (held ++ s.live.erase b)) :=
      ((List.perm_cons_erase hb).append_left held).trans List.perm_middle
    have hstart : Inv cfg P { s with live := s.live.erase b } (b :: (held ++ base ++ s.live.erase b)) :=
      (Inv.perm hperm hinv).of_eq rfl rfl rfl
    have hcount : Account cfg (slack - totalSize (mainRegions held)) { s with live := s.live.erase b }
        (b :: (held ++ s.live.erase b)) := (ha.perm hperm').of_eq rfl rfl rfl
    refine ((freeBlock_spec rfl hstart).and (freeBlock_account rfl hstart hcount)).mono ?_
    intro s' hs'
    obtain ⟨⟨h1, h2⟩, h3⟩ := hs'
    rw [Kept, Holds, h2]
    exact ⟨h1, h3⟩
  cell := by
    intro held s n p rest hP hn hfree h
    have hcount : Account cfg (slack - totalSize (mainRegions held)) s (⟨p, n, .cell⟩ :: (held ++ s.live)) :=
      h.2.of_total rfl
    exact ⟨(holds_rules cfg P).cell (held ++ base) s n p rest hP hn hfree h.1, hcount.of_eq rfl rfl rfl⟩
  main := by
    intro held s n hP hn h
    have hspec := (holds_rules cfg P).main (held ++ base) s n hP hn h.1
    have hcount : ∀ r, allocMain cfg s (alignSize n) = .ok r → Gives (Holds cfg P) n (held ++ base) r →
        Gives (Kept cfg P base slack) n held r := by
      intro r heq hr
      cases allocMain_eq_ok heq with
      | inl hnone =>
        rw [hnone]
        exact h
      | inr hsome =>
        obtain ⟨p, heap, -, hp⟩ := hsome
        rw [hp] at hr ⊢
        refine ⟨hr, ?_⟩
        have hsum : totalSize (mainRegions (⟨p, n, .main⟩ :: (held ++ s.live))) =
            totalSize (mainRegions (held ++ s.live)) + alignSize n := by
          rw [mainRegions_main, totalSize_cons, Nat.add_comm]
        have hgrow := h.2.grow heap hsum
        rw [mainRegions_main, totalSize_cons, Nat.add_comm, ← Nat.sub_sub]
        exact hgrow
    exact (hspec.also hcount).mono fun r hr => hr.2
  page := by
    intro held s p o h
    have ho := Inv.page_main h.1
    rw [ho] at h
    obtain ⟨freeCells, hpush, hpage⟩ := (holds_rules cfg P).page (held ++ base) s p .main h.1
    refine ⟨freeCells, hpush, hpage, ?_⟩
    obtain ⟨hsum, hmultiple, hlow, hhigh⟩ := h.2
    rw [List.cons_append, mainRegions_main, totalSize_cons, alignSize_pageSize] at hsum
    rw [mainRegions_main, totalSize_cons, alignSize_pageSize] at hhigh
    refine ⟨?_, hmultiple, hlow, ?_⟩
    · rw [List.map_cons, totalSize_cons]
      show s.allocatedSize = pageSize cfg + totalSize (s.pages.map (Page.region cfg)) + totalSize (mainRegions (held ++ s.live))
      have hpage' : s.allocatedSize = totalSize (s.pages.map (Page.region cfg)) +
          (pageSize cfg + totalSize (mainRegions (held ++ s.live))) := hsum
      omega
    · have hpage' : s.limit ≤ s.allocatedSize + (slack - (pageSize cfg + totalSize (mainRegions held))) + cfg.gcLimit :=
        hhigh
      show s.limit ≤ s.allocatedSize + (slack - totalSize (mainRegions held)) + cfg.gcLimit
      omega

/-! ## Reallocations -/

/-- The counters without slack. -/
def Counted (cfg : Config) (held : List Block) (s : State) : Prop := Account cfg 0 s (held ++ s.live)

theorem Kept.counted {base held : List Block} (h : Kept cfg P base 0 held s) : Counted cfg held s := by
  have hcount := h.2
  rw [Nat.zero_sub] at hcount
  exact hcount

theorem kept_of_counted {held : List Block} (h : Holds cfg P held s) (hc : Counted cfg held s) :
    Kept cfg P [] 0 held s := by
  refine ⟨?_, ?_⟩
  · rw [List.append_nil]
    exact h
  · rw [Nat.zero_sub]
    exact hc

section

variable {p old : Nat}

/-- A block is moved: the counters lose it before there is a new one, which is bigger. -/
theorem moveBlock_counted (hsizes : Sizes cfg P) (hP : P n) (hlt : alignSize old < alignSize n)
    (h : Holds cfg P [⟨p, old, .main⟩] s) (hc : Counted cfg [⟨p, old, .main⟩] s) :
    Ensures (Excused cfg) (moveBlock cfg s p (alignSize old) n) (Gives (Counted cfg) n []) := by
  have hinv : Inv cfg P s (⟨p, old, .main⟩ :: s.live) := h
  have hle := Account.main_le hc
  have hstart : Kept cfg P [⟨p, old, .main⟩] (alignSize old) []
      { s with allocatedSize := s.allocatedSize - alignSize old } := by
    obtain ⟨hsum, hmultiple, hlow, hhigh⟩ := hc
    refine ⟨hinv.of_eq rfl rfl rfl, ?_, hmultiple, ?_, ?_⟩
    · rw [List.singleton_append, mainRegions_main, totalSize_cons] at hsum
      have htotal : s.allocatedSize = totalSize (s.pages.map (Page.region cfg)) +
          (alignSize old + totalSize (mainRegions s.live)) := hsum
      show s.allocatedSize - alignSize old = totalSize (s.pages.map (Page.region cfg)) + totalSize (mainRegions s.live)
      omega
    · show s.allocatedSize - alignSize old ≤ s.limit
      omega
    · show s.limit ≤ s.allocatedSize - alignSize old + (alignSize old - totalSize []) + cfg.gcLimit
      rw [totalSize_nil]
      omega
  have hspec := (kept_rules cfg P [⟨p, old, .main⟩] (alignSize old)).allocBlockInternal hsizes (fun _ => hP) hstart
  have hn : n ≠ 0 := by
    intro hzero
    rw [hzero] at hlt
    exact absurd hlt (Nat.not_lt_zero _)
  unfold moveBlock
  have hsome : ∀ r : Chunk × State, allocBlockInternal cfg { s with allocatedSize := s.allocatedSize - alignSize old } n =
      .ok r → Gives (Kept cfg P [⟨p, old, .main⟩] (alignSize old)) n [] r → r.1 ≠ none :=
    fun r heq _ => allocBlockInternal_ne_none hn heq
  refine (hspec.also hsome).bind ?_
  intro r hr
  obtain ⟨hgives, hfound⟩ := hr
  obtain ⟨chunk, s1⟩ := r
  cases chunk with
  | none => exact absurd rfl hfound
  | some c =>
    obtain ⟨p', o⟩ := c
    have hkept : Kept cfg P [⟨p, old, .main⟩] (alignSize old) [⟨p', n, o⟩] s1 := hgives
    have hnew : Inv cfg P s1 (⟨p', n, o⟩ :: ⟨p, old, .main⟩ :: s1.live) := hkept.1
    have hold := hinv.main_head.2
    have ho : o = .main := by
      cases o with
      | main => rfl
      | cell => exact absurd (hnew.cell ⟨p', n, .cell⟩ List.mem_cons_self rfl) (by show ¬ alignSize n ≤ cellSize; omega)
    have hcount := hkept.2
    rw [ho, mainRegions_main, totalSize_cons] at hcount
    have hslack : alignSize old - (alignSize n + totalSize (mainRegions [])) = 0 := by omega
    have hslack' : alignSize old - ((⟨p', alignSize n⟩ : Region).size + totalSize (mainRegions [])) = 0 := hslack
    rw [hslack'] at hcount
    have hswap : Inv cfg P s1 (⟨p, old, .main⟩ :: ⟨p', n, o⟩ :: s1.live) := Inv.perm (List.Perm.swap _ _ _) hnew
    obtain ⟨prev, hprev, -⟩ := giveBack hswap
    refine (bounded_eq hprev).bind ?_
    intro q hq
    rw [ho]
    exact ensures_ok (hcount.of_eq rfl rfl rfl)

theorem growBlock_counted (hsizes : Sizes cfg P) (hP : P n) (hlt : alignSize old < alignSize n)
    (h : Holds cfg P [⟨p, old, .main⟩] s) (hc : Counted cfg [⟨p, old, .main⟩] s) :
    Ensures (Excused cfg) (growBlock cfg s p (alignSize old) n) (Gives (Counted cfg) n []) := by
  have hspec := growBlock_spec hsizes hP hlt h
  unfold growBlock at hspec ⊢
  dsimp only at hspec ⊢
  have hstart := kept_of_counted h hc
  have hfirst : Ensures (Excused cfg)
      (if (s.allocatedSize + (alignSize n - alignSize old)) % 2 ^ 64 ≥ s.limit then freeUnusedMemory cfg s .low else .ok s)
      (Kept cfg P [] 0 [⟨p, old, .main⟩]) := by
    split
    · exact (kept_rules cfg P [] 0).freeUnusedMemory .low hstart
    · exact ensures_ok hstart
  cases hgc : (if (s.allocatedSize + (alignSize n - alignSize old)) % 2 ^ 64 ≥ s.limit then
      freeUnusedMemory cfg s .low else .ok s) with
  | error e =>
    rw [hgc] at hfirst
    exact hfirst
  | ok s1 =>
    rw [hgc] at hfirst hspec
    have hkept : Kept cfg P [] 0 [⟨p, old, .main⟩] s1 := hfirst
    have hcount : Counted cfg [⟨p, old, .main⟩] s1 := hkept.counted
    have hholds : Holds cfg P [⟨p, old, .main⟩] s1 := hkept.1
    replace hspec : Ensures (Excused cfg) ((bounded _).bind _) _ := hspec
    show Ensures (Excused cfg) ((bounded _).bind _) _
    cases hextend : extendBlock s1.heap p (alignSize old) (alignSize n - alignSize old) with
    | none =>
      rw [hextend] at hspec
      exact hspec
    | some extended =>
      cases extended with
      | none => exact moveBlock_counted hsizes hP hlt hholds hcount
      | some c =>
        obtain ⟨p', heap⟩ := c
        refine ensures_ok ?_
        have hsum : totalSize (mainRegions (⟨p', n, .main⟩ :: s1.live)) =
            totalSize (mainRegions ([⟨p, old, .main⟩] ++ s1.live)) + (alignSize n - alignSize old) := by
          rw [List.singleton_append, mainRegions_main, mainRegions_main, totalSize_cons, totalSize_cons]
          show alignSize n + _ = alignSize old + _ + _
          omega
        have hgrow := Account.grow heap hcount hsum
        rw [Nat.zero_sub] at hgrow
        exact hgrow

theorem shrinkBlock_counted (hsizes : Sizes cfg P) (hP : P n) (hlt : alignSize n < alignSize old)
    (h : Holds cfg P [⟨p, old, .main⟩] s) (hc : Counted cfg [⟨p, old, .main⟩] s) :
    Ensures (Excused cfg) (shrinkBlock cfg s p (alignSize old) (alignSize n)) (Gives (Counted cfg) n []) := by
  unfold shrinkBlock
  by_cases hn : alignSize n ≤ cellSize
  · rw [if_pos hn]
    have hspec := (kept_rules cfg P [] 0).heapAlloc hsizes allocDepth (alignSize n) (hsizes.round n hP) _ s
      (Or.inr (Or.inl (Nat.le_refl 2))) (kept_of_counted h hc)
    refine hspec.bind ?_
    intro r hr
    obtain ⟨chunk, s1⟩ := r
    cases chunk with
    | none =>
      have hkept : Kept cfg P [] 0 [⟨p, old, .main⟩] s1 := hr
      have hinv : Inv cfg P s1 (⟨p, old, .main⟩ :: s1.live) := hkept.1
      refine ((freeBlock_spec (alignSize_idem old) hinv).and (freeBlock_account (alignSize_idem old) hinv hkept.counted)).bind ?_
      intro s2 h2
      refine ensures_ok ?_
      show Account cfg 0 s2 s2.live
      rw [h2.1.2]
      exact h2.2
    | some c =>
      obtain ⟨p', o⟩ := c
      have hkept : Kept cfg P [] 0 [⟨p', alignSize n, o⟩, ⟨p, old, .main⟩] s1 := hr
      have hinv : Inv cfg P s1 (⟨p, old, .main⟩ :: ⟨p', alignSize n, o⟩ :: s1.live) :=
        Inv.perm (List.Perm.swap _ _ _) hkept.1
      have hcount : Account cfg 0 s1 (⟨p, old, .main⟩ :: ⟨p', alignSize n, o⟩ :: s1.live) :=
        hkept.counted.perm (List.Perm.swap _ _ _)
      refine ((freeBlock_spec (alignSize_idem old) hinv).and (freeBlock_account (alignSize_idem old) hinv hcount)).bind ?_
      intro s2 h2
      refine ensures_ok ?_
      show Account cfg 0 s2 (⟨p', n, o⟩ :: s2.live)
      rw [h2.1.2]
      exact h2.2.of_total (totalSize_resize o (alignSize_idem n).symm)
  · rw [if_neg hn]
    have hinv : Inv cfg P s (⟨p, old, .main⟩ :: s.live) := h
    obtain ⟨prev, hprev, -⟩ := giveBack hinv
    refine (bounded_eq hprev).bind ?_
    intro q hq
    refine ensures_ok (Account.shrink _ hc ?_)
    rw [List.singleton_append, mainRegions_main, totalSize_cons]
    show alignSize old + _ = totalSize (mainRegions (⟨p, n, .main⟩ :: s.live)) + _
    rw [mainRegions_main, totalSize_cons]
    show alignSize old + _ = alignSize n + _ + _
    omega

theorem reallocBlock_counted (hsizes : Sizes cfg P) (hP : P n) {o : Origin} (h : Holds cfg P [⟨p, old, o⟩] s)
    (hc : Counted cfg [⟨p, old, o⟩] s) :
    Ensures (Excused cfg) (reallocBlock cfg s p old n) (Gives (Counted cfg) n []) := by
  have hinv : Inv cfg P s (⟨p, old, o⟩ :: s.live) := h
  unfold reallocBlock
  dsimp only
  cases o with
  | cell =>
    obtain ⟨page, hfind⟩ := find_cell hinv List.mem_cons_self rfl
    rw [hfind]
    dsimp only
    by_cases hn : alignSize n ≤ cellSize
    · rw [if_pos hn]
      exact ensures_ok (Account.of_total hc rfl)
    · rw [if_neg hn]
      have hspec := (kept_rules cfg P [] 0).allocBlockInternal hsizes (fun _ => hsizes.round n hP) (kept_of_counted h hc)
      refine hspec.bind ?_
      intro r hr
      obtain ⟨chunk, s1⟩ := r
      cases chunk with
      | none =>
        have hcount : Counted cfg [⟨p, old, .cell⟩] s1 := Kept.counted hr
        exact ensures_ok (Account.of_total hcount rfl)
      | some c =>
        obtain ⟨p', o'⟩ := c
        have hcount : Account cfg 0 s1 (⟨p', alignSize n, o'⟩ :: ⟨p, old, .cell⟩ :: s1.live) := Kept.counted hr
        have hdrop : Account cfg 0 s1 (⟨p', alignSize n, o'⟩ :: s1.live) :=
          (hcount.perm (List.Perm.swap _ _ _)).of_total rfl
        have hresize : Account cfg 0 s1 (⟨p', n, o'⟩ :: s1.live) :=
          hdrop.of_total (totalSize_resize o' (alignSize_idem n).symm)
        exact ensures_ok (hresize.of_eq rfl rfl rfl)
  | main =>
    rw [find_main hinv List.mem_cons_self rfl]
    dsimp only
    by_cases heq : alignSize old = alignSize n
    · rw [if_pos heq]
      exact ensures_ok (hc.of_total (totalSize_resize .main heq.symm))
    · rw [if_neg heq]
      by_cases hlt : alignSize n < alignSize old
      · rw [if_pos hlt]
        exact shrinkBlock_counted hsizes hP hlt h hc
      · rw [if_neg hlt]
        exact growBlock_counted hsizes hP (by omega) h hc

end

/-! ## Runs -/

theorem handOut_counted {r : Chunk × State} (h : Gives (Counted cfg) n [] r) :
    Account cfg 0 (handOut n r) (handOut n r).live := by
  obtain ⟨chunk, s⟩ := r
  cases chunk with
  | none => exact h
  | some c => exact Account.of_eq (s := s) h rfl rfl rfl

theorem step_account (hsizes : Sizes cfg P) (op : Op) (hop : op.Asks P) (h : Holds cfg P [] s)
    (ha : Account cfg 0 s s.live) :
    Ensures (Excused cfg) (step cfg s op) fun s' => Account cfg 0 s' s'.live := by
  have hrules := kept_rules cfg P [] 0
  have hkept : Kept cfg P [] 0 [] s := ⟨h, ha⟩
  have hcollected : ∀ s', Kept cfg P [] 0 [] s' → Account cfg 0 s' s'.live := fun s' hs' => hs'.2
  cases op with
  | alloc fatal size plan =>
    have hstart : Kept cfg P [] 0 [] { s with plan := plan } := hrules.plan [] s plan hkept
    have hspec : Ensures (Excused cfg)
        (if fatal then allocBlockInternal cfg { s with plan := plan } size
          else allocBlockNullOnError cfg { s with plan := plan } size) (Gives (Kept cfg P [] 0) size []) := by
      split
      · exact hrules.allocBlockInternal hsizes hop hstart
      · exact hrules.allocBlockNullOnError hsizes hop hstart
    refine hspec.bind ?_
    intro r hr
    refine ensures_ok (handOut_counted ?_)
    obtain ⟨chunk, s'⟩ := r
    cases chunk with
    | none => exact Kept.counted hr
    | some c => exact Kept.counted hr
  | free ptr => exact (hrules.collectBlock ptr hkept).mono hcollected
  | realloc ptr newSize plan =>
    unfold step
    dsimp only
    cases hfind : s.live.find? fun b => decide (b.ptr = ptr) with
    | none => exact ensures_ok ha
    | some b =>
      dsimp only
      by_cases hn : newSize = 0
      · rw [if_pos hn]
        exact ensures_ok ha
      · rw [if_neg hn]
        have hperm := List.perm_cons_erase (List.mem_of_find?_eq_some hfind)
        have hstart : Holds cfg P [b] { s with live := s.live.erase b, plan := plan } := (Inv.perm hperm h).of_eq rfl rfl rfl
        have hcount : Counted cfg [b] { s with live := s.live.erase b, plan := plan } := (ha.perm hperm).of_eq rfl rfl rfl
        exact (reallocBlock_counted hsizes (hop hn) hstart hcount).bind fun r hr => ensures_ok (handOut_counted hr)
  | collect ptrs => exact (hrules.collectBlocks ptrs hkept).mono hcollected
  | write data => exact ensures_ok (ha.of_eq rfl rfl rfl)

theorem reachable_account (h : Reachable cfg (fun _ => True) s) : Account cfg 0 s s.live := by
  induction h with
  | init => exact account_init cfg
  | @step _ _ op hreach _ hstep ih =>
    have hinv := reachable_holds ⟨trivial, fun _ _ => trivial⟩ (hreach.mono fun op _ => op.asks_true)
    have hspec := step_account ⟨trivial, fun _ _ => trivial⟩ op op.asks_true hinv ih
    rw [hstep] at hspec
    exact hspec

/-- The counters agree with the blocks in use. Every subtraction is of the rounded size of such blocks, and `covered`
says that it does not underflow. The loops are left by their conditions and not by their bounds. -/
structure Accounting (cfg : Config) (s : State) : Prop where
  sum : s.allocatedSize = totalSize (mainBlocks cfg s)
  multiple : cfg.gcLimit ∣ s.limit
  bounds : s.allocatedSize ≤ s.limit ∧ s.limit ≤ s.allocatedSize + cfg.gcLimit
  covered : ∀ rs, rs.Sublist (mainBlocks cfg s) → totalSize rs ≤ s.allocatedSize
  raised : ∀ size limit, size < raiseLimit cfg.gcLimit size (size + 1) limit
  lowered : ∀ size limit, lowerLimit cfg.gcLimit size (limit + 1) limit < size + cfg.gcLimit

theorem heap_accounting (h : Reachable cfg (fun _ => True) s) : Accounting cfg s := by
  obtain ⟨hsum, hmultiple, hlow, hhigh⟩ := reachable_account h
  have htotal : s.allocatedSize = totalSize (mainBlocks cfg s) := by
    rw [mainBlocks, totalSize_append]
    exact hsum
  refine ⟨htotal, hmultiple, ⟨hlow, hhigh⟩, ?_, ?_, ?_⟩
  · intro rs hrs
    rw [htotal]
    exact totalSize_sublist hrs
  · exact fun size limit => (raiseLimit_spec cfg.gcLimit_pos (size + 1) limit (by omega)).1
  · exact fun size limit => (lowerLimit_spec cfg.gcLimit_pos (limit + 1) limit (Nat.lt_succ_self limit)).1

theorem heap_accounting_small : ∃ s, s.allocatedSize = 192 ∧ s.limit = 1024 ∧ Accounting smallHeap s := by
  have hrun : ((run smallHeap (State.init smallHeap) [.alloc false 8 [], .alloc true 100 []]).toOption.map
      fun s => (s.allocatedSize, s.limit)) = some (192, 1024) := by decide +kernel
  cases hres : run smallHeap (State.init smallHeap) [.alloc false 8 [], .alloc true 100 []] with
  | error e => rw [hres] at hrun; cases hrun
  | ok s =>
    rw [hres] at hrun
    have hpair : (s.allocatedSize, s.limit) = (192, 1024) := Option.some.inj hrun
    exact ⟨s, congrArg Prod.fst hpair, congrArg Prod.snd hpair,
      heap_accounting (reachable_run (fun _ _ => trivial) Reachable.init hres)⟩

/-- When the last block of the main heap is freed, the limit goes down to nothing. -/
theorem limit_not_above :
    ¬ ∀ (cfg : Config) (s : State), Reachable cfg (fun _ => True) s →
      s.allocatedSize = totalSize (mainBlocks cfg s) ∧ s.limit - cfg.gcLimit ≤ s.allocatedSize ∧
        s.allocatedSize < s.limit ∧ 0 < s.limit ∧ cfg.gcLimit ∣ s.limit := by
  intro hall
  have hrun : ((run smallHeap (State.init smallHeap) [.alloc true 100 [], .free 8]).toOption.map
      fun s => (s.allocatedSize, s.limit)) = some (0, 0) := by decide +kernel
  cases hres : run smallHeap (State.init smallHeap) [.alloc true 100 [], .free 8] with
  | error e => rw [hres] at hrun; cases hrun
  | ok s =>
    rw [hres] at hrun
    have hpair : (s.allocatedSize, s.limit) = (0, 0) := Option.some.inj hrun
    have hlimit : s.limit = 0 := congrArg Prod.snd hpair
    have hclaim := hall smallHeap s (reachable_run (fun _ _ => trivial) Reachable.init hres)
    have hpos := hclaim.2.2.2.1
    rw [hlimit] at hpos
    exact absurd hpos (Nat.lt_irrefl 0)

end Jmem
end JJS
