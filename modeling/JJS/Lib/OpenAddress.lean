import Mathlib.Data.List.ReduceOption
import Mathlib.Data.List.Perm.Basic

/-!
# JJS.Lib.OpenAddress

Open addressing over items of any type. The path of an item is the sequence of buckets that a search for it
visits, whatever the sequence is. A table is filed when all buckets before the one of an item, on the path of that
item, are full (`Filed`): a search then cannot give up before it comes to the item (`Filed.found`). Putting
an item in the first empty bucket of its path keeps a table filed (`Filed.set`) and adds just that item
(`items_set`).
-/

namespace OpenAddress

variable {α : Type}

/-- What is in bucket `i`. -/
def bucket (buckets : List (Option α)) (i : Nat) : Option α := buckets.getD i none

/-- The search along `path` stops at bucket `j`. -/
def StopsAt (buckets : List (Option α)) (path : Nat → Nat) (stop : Option α → Bool) (j : Nat) : Prop :=
  ∃ k, path k = j ∧ stop (bucket buckets j) = true ∧ ∀ i < k, stop (bucket buckets (path i)) = false

/-- Before every item its path is full. -/
def Filed (path : α → Nat → Nat) (buckets : List (Option α)) : Prop :=
  ∀ j a, bucket buckets j = some a → ∃ k, path a k = j ∧ ∀ i < k, bucket buckets (path a i) ≠ none

variable {buckets : List (Option α)} {a : α} {j : Nat}

theorem bucket_set (h : j < buckets.length) (i : Nat) :
    bucket (buckets.set j (some a)) i = if i = j then some a else bucket buckets i := by
  rw [bucket, bucket, List.getD_eq_getElem?_getD, List.getD_eq_getElem?_getD, List.getElem?_set]
  by_cases hij : j = i
  · rw [if_pos hij, if_pos h, if_pos hij.symm]
    rfl
  · rw [if_neg hij, if_neg (fun heq => hij heq.symm)]

theorem mem_items_iff : a ∈ buckets.reduceOption ↔ ∃ i, bucket buckets i = some a := by
  rw [List.reduceOption_mem_iff, List.mem_iff_getElem?]
  constructor
  · intro h
    obtain ⟨i, hi⟩ := h
    exact ⟨i, by rw [bucket, List.getD_eq_getElem?_getD, hi]; rfl⟩
  · intro h
    obtain ⟨i, hi⟩ := h
    refine ⟨i, ?_⟩
    rw [bucket, List.getD_eq_getElem?_getD] at hi
    cases hget : buckets[i]? with
    | none => rw [hget] at hi; cases hi
    | some o => rw [hget, Option.getD_some] at hi; rw [hi]

/-- Filling an empty bucket adds one item. -/
theorem items_set (h : j < buckets.length) (hnone : bucket buckets j = none) :
    (buckets.set j (some a)).reduceOption.Perm (a :: buckets.reduceOption) := by
  induction buckets generalizing j with
  | nil => cases h
  | cons o rest ih =>
    cases j with
    | zero =>
      have ho : o = none := hnone
      rw [ho, List.set_cons_zero, List.reduceOption_cons_of_some, List.reduceOption_cons_of_none]
    | succ j =>
      have hrest := ih (j := j) (Nat.lt_of_succ_lt_succ h) hnone
      rw [List.set_cons_succ]
      cases o with
      | none => rw [List.reduceOption_cons_of_none, List.reduceOption_cons_of_none]; exact hrest
      | some b =>
        rw [List.reduceOption_cons_of_some, List.reduceOption_cons_of_some]
        exact (hrest.cons b).trans (List.Perm.swap a b _)

theorem bucket_replicate (n i : Nat) : bucket (List.replicate n (none : Option α)) i = none := by
  rw [bucket, List.getD_eq_getElem?_getD, List.getElem?_replicate]
  split
  · rfl
  · rfl

theorem filed_replicate (path : α → Nat → Nat) (n : Nat) : Filed path (List.replicate n none) := by
  intro j a h
  rw [bucket_replicate] at h
  cases h

/-- An item in the first empty bucket of its path. -/
theorem Filed.set {path : α → Nat → Nat} (hfiled : Filed path buckets) (hj : j < buckets.length)
    (h : StopsAt buckets (path a) Option.isNone j) : Filed path (buckets.set j (some a)) := by
  obtain ⟨k, hk, hnone, hbefore⟩ := h
  intro i b hb
  rw [bucket_set hj] at hb
  split at hb
  · rename_i hij
    cases hb
    refine ⟨k, hk.trans hij.symm, ?_⟩
    intro m hm
    rw [bucket_set hj]
    split
    · exact Option.some_ne_none _
    · intro hempty
      have hfull := hbefore m hm
      rw [hempty] at hfull
      cases hfull
  · obtain ⟨m, hm, hfull⟩ := hfiled i b hb
    refine ⟨m, hm, ?_⟩
    intro x hx
    rw [bucket_set hj]
    split
    · exact Option.some_ne_none _
    · exact hfull x hx

/-- A search along the path of an item that stops at this item only, or at an empty bucket, comes to it. -/
theorem Filed.found {path : α → Nat → Nat} {stop : Option α → Bool} (hfiled : Filed path buckets)
    (ha : a ∈ buckets.reduceOption) (hstop : stop (some a) = true)
    (honly : ∀ b ∈ buckets.reduceOption, stop (some b) = true → b = a)
    (h : StopsAt buckets (path a) stop j) : bucket buckets j = some a := by
  obtain ⟨k, hk, hat, hbefore⟩ := h
  obtain ⟨i, hi⟩ := mem_items_iff.mp ha
  obtain ⟨m, hm, hfull⟩ := hfiled i a hi
  cases hb : bucket buckets j with
  | some b =>
    rw [hb] at hat
    rw [honly b (mem_items_iff.mpr ⟨j, hb⟩) hat]
  | none =>
    -- the empty bucket would come before the item, or the search would have stopped at the item
    exfalso
    rcases Nat.lt_trichotomy k m with hlt | heq | hgt
    · exact hfull k hlt (by rw [hk]; exact hb)
    · rw [← hk, heq, hm, hi] at hb
      cases hb
    · have hpassed := hbefore m hgt
      rw [hm, hi, hstop] at hpassed
      cases hpassed

/-- A search that stops at no item ends at an empty bucket. -/
theorem StopsAt.absent {path : Nat → Nat} {stop : Option α → Bool}
    (hnone : ∀ b ∈ buckets.reduceOption, stop (some b) = false) (h : StopsAt buckets path stop j) :
    bucket buckets j = none := by
  obtain ⟨_, _, hat, _⟩ := h
  cases hb : bucket buckets j with
  | none => rfl
  | some b =>
    rw [hb, hnone b (mem_items_iff.mpr ⟨j, hb⟩)] at hat
    cases hat

end OpenAddress
