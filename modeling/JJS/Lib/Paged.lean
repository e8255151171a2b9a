import Mathlib.Data.List.Basic
import Mathlib.Logic.Function.Basic

/-!
# JJS.Lib.Paged

A stack of cells in pages of a fixed size, each with a link to the page below. `Linked` says which cells there are from a
position in a page down to the end; all pages below are full. Cells are added behind the position (`Linked.append`,
`Linked.push`), a position moves down within a page or to the next one (`Linked.within`, `Linked.across`), and what is
below a position can be exchanged under what is above it (`Rest`, `Rest.within`, `Rest.across`).
-/

namespace Paged

variable {β : Type}

/-- A page; no link is `none`. -/
structure Page (β : Type) where
  next : Option Nat
  cells : Nat → β

/-- `n` cells from `start` on. -/
def segment (cells : Nat → β) (start n : Nat) : List β := (List.range' start n).map cells

/-- The cells from `start` on are overwritten. -/
def store (cells : Nat → β) (start : Nat) (data : List β) : Nat → β :=
  fun i => if start ≤ i then data.getD (i - start) (cells i) else cells i

@[simp] theorem length_segment (cells : Nat → β) (start n : Nat) : (segment cells start n).length = n := by
  rw [segment, List.length_map, List.length_range']

theorem segment_zero (cells : Nat → β) (start : Nat) : segment cells start 0 = [] := rfl

theorem segment_append (cells : Nat → β) (start a b : Nat) :
    segment cells start a ++ segment cells (start + a) b = segment cells start (a + b) := by
  rw [segment, segment, segment, ← List.map_append, List.range'_append_1]

theorem segment_congr {cells cells' : Nat → β} {start n : Nat} (h : ∀ i, start ≤ i → i < start + n → cells' i = cells i) :
    segment cells' start n = segment cells start n := by
  refine List.map_congr_left fun i hi => ?_
  rw [List.mem_range'_1] at hi
  exact h i hi.1 hi.2

theorem segment_store (cells : Nat → β) (start : Nat) (data : List β) :
    segment (store cells start data) start data.length = data := by
  refine List.ext_getElem (length_segment _ _ _) fun i hi hi' => ?_
  simp only [segment, List.getElem_map, List.getElem_range', store, Nat.one_mul, Nat.le_add_right, if_true,
    Nat.add_sub_cancel_left, List.getD_eq_getElem?_getD, List.getElem?_eq_getElem hi', Option.getD_some]

theorem store_before (cells : Nat → β) {start i : Nat} (data : List β) (h : i < start) : store cells start data i = cells i :=
  if_neg (Nat.not_le_of_lt h)

theorem store_after (cells : Nat → β) {start i : Nat} (data : List β) (h : start + data.length ≤ i) :
    store cells start data i = cells i := by
  rw [store, if_pos (by omega), List.getD_eq_getElem?_getD, List.getElem?_eq_none (by omega), Option.getD_none]

/-- `ids` are the pages from `current` down, and `l` the cells from the end up to `position` in the first of them. -/
inductive Linked (size : Nat) (pages : Nat → Page β) : Option Nat → Nat → List Nat → List β → Prop where
  | nil : Linked size pages none size [] []
  | page {p position : Nat} {ids : List Nat} {below : List β} (hpos : 0 < position) (hsize : position ≤ size)
      (hbelow : Linked size pages (pages p).next size ids below) :
      Linked size pages (some p) position (p :: ids) (below ++ segment (pages p).cells 0 position)

variable {size : Nat} {pages pages' : Nat → Page β} {current : Option Nat} {position p : Nat} {ids : List Nat} {l : List β}

theorem Linked.position_le (h : Linked size pages current position ids l) : position ≤ size := by
  cases h with
  | nil => exact Nat.le_refl _
  | page _ hsize _ => exact hsize

theorem Linked.position_pos (h : Linked size pages current position ids l) (hsize : 0 < size) : 0 < position := by
  cases h with
  | nil => exact hsize
  | page hpos _ _ => exact hpos

/-- Other pages do not matter. -/
theorem Linked.congr (h : Linked size pages current position ids l) (hsame : ∀ p ∈ ids, pages' p = pages p) :
    Linked size pages' current position ids l := by
  induction h with
  | nil => exact .nil
  | @page p position ids below hpos hsize hbelow ih =>
    have hp := hsame p List.mem_cons_self
    rw [← hp]
    refine .page hpos hsize ?_
    rw [hp]
    exact ih fun q hq => hsame q (List.mem_cons_of_mem p hq)

/-- The last cell is the one before the position. -/
theorem Linked.last (h : Linked size pages (some p) position ids l) :
    l.getLast? = some ((pages p).cells (position - 1)) := by
  cases h with
  | page hpos _ _ =>
    have hlast : segment (pages p).cells 0 position = segment (pages p).cells 0 (position - 1) ++ [(pages p).cells (position - 1)] := by
      have happend := segment_append (pages p).cells 0 (position - 1) 1
      rw [Nat.zero_add, Nat.sub_add_cancel hpos] at happend
      exact happend.symm
    rw [hlast, ← List.append_assoc, List.getLast?_concat]

theorem Linked.empty (h : Linked size pages current position ids l) (hcurrent : current = none) : ids = [] ∧ l = [] := by
  cases h with
  | nil => exact ⟨rfl, rfl⟩
  | page _ _ _ => cases hcurrent

/-! ## Additions -/

/-- Cells are added in the first page. -/
theorem Linked.append (h : Linked size pages (some p) position ids l) (hnodup : ids.Nodup) {data : List β}
    (hroom : position + data.length ≤ size) :
    Linked size (Function.update pages p { pages p with cells := store (pages p).cells position data }) (some p)
      (position + data.length) ids (l ++ data) := by
  cases h with
  | @page _ _ ids below hpos hsize hbelow =>
    rw [List.nodup_cons] at hnodup
    have hcells : segment (store (pages p).cells position data) 0 (position + data.length) =
        segment (pages p).cells 0 position ++ data := by
      rw [← segment_append, Nat.zero_add, segment_store,
        segment_congr fun i _ hi => store_before (pages p).cells data (by omega)]
    have hpage := @Linked.page β size (Function.update pages p { pages p with cells := store (pages p).cells position data })
      p (position + data.length) ids below (by omega) hroom (by
        rw [Function.update_self]
        refine hbelow.congr fun q hq => Function.update_of_ne ?_ _ _
        intro heq
        rw [heq] at hq
        exact hnodup.1 hq)
    rw [Function.update_self] at hpage
    dsimp only at hpage
    rw [hcells] at hpage
    rw [List.append_assoc]
    exact hpage

/-- Cells are added in a new page. -/
theorem Linked.push (h : Linked size pages current size ids l) (hnew : p ∉ ids) {data : List β} (hpos : 0 < data.length)
    (hroom : data.length ≤ size) {cells : Nat → β} :
    Linked size (Function.update pages p ⟨current, store cells 0 data⟩) (some p) data.length (p :: ids) (l ++ data) := by
  have hpage := @Linked.page β size (Function.update pages p ⟨current, store cells 0 data⟩) p data.length ids l hpos hroom (by
    rw [Function.update_self]
    refine h.congr fun q hq => Function.update_of_ne ?_ _ _
    intro heq
    rw [heq] at hq
    exact hnew hq)
  rw [Function.update_self] at hpage
  dsimp only at hpage
  rw [segment_store] at hpage
  exact hpage

/-! ## Moves -/

/-- The position moves down in its page. -/
theorem Linked.within (h : Linked size pages (some p) position ids l) {length : Nat} (hlength : length < position) :
    length < l.length ∧ Linked size pages (some p) (position - length) ids (l.take (l.length - length)) ∧
      l.drop (l.length - length) = segment (pages p).cells (position - length) length := by
  cases h with
  | @page _ _ ids below hpos hsize hbelow =>
    have hcells := segment_append (pages p).cells 0 (position - length) length
    rw [Nat.zero_add, Nat.sub_add_cancel (by omega)] at hcells
    have htotal : (below ++ segment (pages p).cells 0 position).length - length =
        (below ++ segment (pages p).cells 0 (position - length)).length := by
      rw [List.length_append, List.length_append, length_segment, length_segment]
      omega
    refine ⟨?_, ?_, ?_⟩
    · rw [List.length_append, length_segment]
      omega
    · rw [htotal, ← hcells, ← List.append_assoc, List.take_left]
      exact .page (by omega) (by omega) hbelow
    · rw [htotal, ← hcells, ← List.append_assoc, List.drop_left]

/-- The position moves to the page below. -/
theorem Linked.across (h : Linked size pages current position ids l) {length : Nat} (hge : position ≤ length)
    (hlength : length ≤ l.length) (hsize : length < size) :
    ∃ p rest, current = some p ∧ ids = p :: rest ∧
      Linked size pages (pages p).next (size - (length - position)) rest (l.take (l.length - length)) ∧
      (l.drop (l.length - length) = segment (pages p).cells 0 position ∧ length = position ∨
        ∃ q, (pages p).next = some q ∧ l.drop (l.length - length) =
          segment (pages q).cells (size - (length - position)) (length - position) ++ segment (pages p).cells 0 position) := by
  cases h with
  | nil => omega
  | @page p _ rest below hpos _ hbelow =>
    refine ⟨p, rest, rfl, rfl, ?_⟩
    have htotal : (below ++ segment (pages p).cells 0 position).length - length = below.length - (length - position) := by
      rw [List.length_append, length_segment]
      omega
    rw [List.length_append, length_segment] at hlength
    rw [htotal, List.take_append_of_le_length (by omega), List.drop_append_of_le_length (by omega)]
    by_cases heq : length = position
    · rw [heq, Nat.sub_self, Nat.sub_zero, Nat.sub_zero, List.take_length, List.drop_length, List.nil_append]
      exact ⟨hbelow, Or.inl ⟨rfl, rfl⟩⟩
    · cases hnext : (pages p).next with
      | none =>
        rw [hnext] at hbelow
        obtain ⟨-, hnil⟩ := hbelow.empty rfl
        rw [hnil, List.length_nil] at hlength
        omega
      | some q =>
        rw [hnext] at hbelow
        obtain ⟨-, hlinked, hdrop⟩ := hbelow.within (show length - position < size by omega)
        refine ⟨hlinked, Or.inr ⟨q, rfl, ?_⟩⟩
        rw [hdrop]

/-! ## Changes below a position -/

/-- Nothing is different but cells before a position, down to the end. -/
structure Same (pages pages' : Nat → Page β) (current : Option Nat) (position : Nat) (ids : List Nat) : Prop where
  next : ∀ p, (pages' p).next = (pages p).next
  others : ∀ p, p ∉ ids → pages' p = pages p
  cells : ∀ p, current = some p → ∀ i, position ≤ i → (pages' p).cells i = (pages p).cells i

theorem Same.trans {pages'' : Nat → Page β} (h : Same pages pages' current position ids)
    (h' : Same pages' pages'' current position ids) : Same pages pages'' current position ids where
  next p := (h'.next p).trans (h.next p)
  others p hp := (h'.others p hp).trans (h.others p hp)
  cells p hp i hi := (h'.cells p hp i hi).trans (h.cells p hp i hi)

/-- `l` is what is left of the stack below a position, `above` lies above it, and another `l` can be put in the place of
this one. -/
structure Rest (size : Nat) (pages : Nat → Page β) (first : Option Nat) (lastPosition : Nat) (all : List Nat) (stack : List β)
    (current : Option Nat) (position : Nat) (ids : List Nat) (l above : List β) : Prop where
  linked : Linked size pages current position ids l
  split : stack = l ++ above
  nodup : ids.Nodup
  subset : ids ⊆ all
  put : ∀ (pages' : Nat → Page β) (l' : List β), Same pages pages' current position ids →
    Linked size pages' current position ids l' → Linked size pages' first lastPosition all (l' ++ above)

variable {first : Option Nat} {lastPosition : Nat} {all : List Nat} {stack above : List β}

theorem Rest.start (h : Linked size pages first lastPosition all stack) (hnodup : all.Nodup) :
    Rest size pages first lastPosition all stack first lastPosition all stack [] where
  linked := h
  split := (List.append_nil stack).symm
  nodup := hnodup
  subset := List.Subset.refl all
  put pages' l' _ h' := by
    rw [List.append_nil]
    exact h'

theorem Rest.changed (h : Rest size pages first lastPosition all stack current position ids l above)
    (hsame : Same pages pages' current position ids) {l' : List β} (hlinked : Linked size pages' current position ids l') :
    Rest size pages' first lastPosition all (l' ++ above) current position ids l' above where
  linked := hlinked
  split := rfl
  nodup := h.nodup
  subset := h.subset
  put pages'' l'' h'' := h.put pages'' l'' (hsame.trans h'')

theorem Rest.within (h : Rest size pages first lastPosition all stack (some p) position ids l above) {length : Nat}
    (hlength : length < position) :
    Rest size pages first lastPosition all stack (some p) (position - length) ids (l.take (l.length - length))
      (l.drop (l.length - length) ++ above) := by
  obtain ⟨-, hlinked, hdrop⟩ := h.linked.within hlength
  refine ⟨hlinked, ?_, h.nodup, h.subset, ?_⟩
  · rw [← List.append_assoc, List.take_append_drop]
    exact h.split
  · intro pages' l' hsame hlinked'
    rw [← List.append_assoc, hdrop]
    refine h.put pages' _ ⟨hsame.next, hsame.others, fun q hq i hi => hsame.cells q hq i (by omega)⟩ ?_
    have hle := h.linked.position_le
    cases hlinked' with
    | @page _ _ rest below hpos _ hbelow =>
      have hcells : segment (pages p).cells (position - length) length =
          segment (pages' p).cells (position - length) length :=
        (segment_congr fun i hi _ => hsame.cells p rfl i hi).symm
      have happend := segment_append (pages' p).cells 0 (position - length) length
      rw [Nat.zero_add, Nat.sub_add_cancel (by omega)] at happend
      rw [hcells, List.append_assoc, happend]
      exact .page (by omega) hle hbelow

theorem Rest.across (h : Rest size pages first lastPosition all stack current position ids l above) {length : Nat}
    (hge : position ≤ length) (hlength : length ≤ l.length) (hsize : length < size) :
    ∃ p rest, current = some p ∧ ids = p :: rest ∧
      Rest size pages first lastPosition all stack (pages p).next (size - (length - position)) rest (l.take (l.length - length))
        (l.drop (l.length - length) ++ above) := by
  obtain ⟨p, rest, hcurrent, hids, hlinked, hdrop⟩ := h.linked.across hge hlength hsize
  have hnodup := h.nodup
  rw [hids, List.nodup_cons] at hnodup
  refine ⟨p, rest, hcurrent, hids, hlinked, ?_, hnodup.2, ?_, ?_⟩
  · rw [← List.append_assoc, List.take_append_drop]
    exact h.split
  · intro q hq
    have hsub := h.subset
    rw [hids] at hsub
    exact hsub (List.mem_cons_of_mem p hq)
  · intro pages' l' hsame hlinked'
    have hp : pages' p = pages p := hsame.others p hnodup.1
    have hposition := h.linked.position_pos (by omega)
    have hle := h.linked.position_le
    rw [← List.append_assoc]
    refine h.put pages' _ ⟨hsame.next, ?_, ?_⟩ ?_
    · intro q hq
      refine hsame.others q fun hrest => hq ?_
      rw [hids]
      exact List.mem_cons_of_mem p hrest
    · intro q hq i _
      rw [hcurrent, Option.some.injEq] at hq
      rw [← hq, hp]
    · -- the page below is filled up again
      obtain ⟨below, hbelow, happend⟩ : ∃ below, Linked size pages' (pages p).next size rest below ∧
          l' ++ l.drop (l.length - length) = below ++ segment (pages p).cells 0 position := by
        cases hdrop with
        | inl hend =>
          rw [hend.1]
          rw [hend.2, Nat.sub_self, Nat.sub_zero] at hlinked'
          exact ⟨l', hlinked', rfl⟩
        | inr hnext =>
          obtain ⟨q, hq, hcells⟩ := hnext
          rw [hcells, ← List.append_assoc]
          refine ⟨_, ?_, rfl⟩
          rw [hq] at hlinked' hsame ⊢
          cases hlinked' with
          | @page _ _ rest' below hpos _ hbelow =>
            have hsegment : segment (pages q).cells (size - (length - position)) (length - position) =
                segment (pages' q).cells (size - (length - position)) (length - position) :=
              (segment_congr fun i hi _ => hsame.cells q rfl i hi).symm
            have happend := segment_append (pages' q).cells 0 (size - (length - position)) (length - position)
            rw [Nat.zero_add, Nat.sub_add_cancel (by omega)] at happend
            rw [hsegment, List.append_assoc, happend]
            exact .page (by omega) (Nat.le_refl size) hbelow
      rw [happend, hcurrent, hids, ← hp]
      refine .page hposition hle ?_
      rw [hp]
      exact hbelow

/-! ## Overwriting -/

/-- The last cells before the position are overwritten, all of them in the first page. -/
theorem Linked.overwrite (h : Linked size pages (some p) position ids l) (hnodup : ids.Nodup) {data : List β}
    (hlength : data.length ≤ position) :
    Same pages (Function.update pages p { pages p with cells := store (pages p).cells (position - data.length) data })
        (some p) position ids ∧
      Linked size (Function.update pages p { pages p with cells := store (pages p).cells (position - data.length) data })
        (some p) position ids (l.take (l.length - data.length) ++ data) := by
  cases h with
  | @page _ _ rest below hpos hsize hbelow =>
    rw [List.nodup_cons] at hnodup
    refine ⟨⟨?_, ?_, ?_⟩, ?_⟩
    · intro q
      by_cases hq : q = p
      · rw [hq, Function.update_self]
      · rw [Function.update_of_ne hq]
    · intro q hq
      refine Function.update_of_ne ?_ _ _
      intro heq
      rw [heq] at hq
      exact hq List.mem_cons_self
    · intro q hq i hi
      rw [Option.some.injEq] at hq
      rw [← hq, Function.update_self]
      exact store_after _ _ (by omega)
    · have htotal : (below ++ segment (pages p).cells 0 position).length - data.length =
          (below ++ segment (pages p).cells 0 (position - data.length)).length := by
        rw [List.length_append, List.length_append, length_segment, length_segment]
        omega
      have hcells := segment_append (pages p).cells 0 (position - data.length) data.length
      rw [Nat.zero_add, Nat.sub_add_cancel hlength] at hcells
      have hstored : segment (store (pages p).cells (position - data.length) data) 0 position =
          segment (pages p).cells 0 (position - data.length) ++ data := by
        have hsplit := segment_append (store (pages p).cells (position - data.length) data) 0 (position - data.length)
          data.length
        rw [Nat.zero_add, Nat.sub_add_cancel hlength, segment_store,
          segment_congr fun i _ hi => store_before (pages p).cells data (by omega)] at hsplit
        exact hsplit.symm
      rw [htotal, ← hcells, ← List.append_assoc, List.take_left, List.append_assoc, ← hstored]
      have hpage := @Linked.page β size
        (Function.update pages p { pages p with cells := store (pages p).cells (position - data.length) data }) p position
        rest below hpos hsize (by
          rw [Function.update_self]
          refine hbelow.congr fun q hq => Function.update_of_ne ?_ _ _
          intro heq
          rw [heq] at hq
          exact hnodup.1 hq)
      rw [Function.update_self] at hpage
      exact hpage

/-- The last cells before the position are overwritten, and some of them are in the page below. -/
theorem Linked.overwrite_across (h : Linked size pages (some p) position ids l) (hnodup : ids.Nodup) {data : List β}
    (hgt : position < data.length) (hlength : data.length ≤ l.length) (hsize : data.length < size) :
    ∃ q, (pages p).next = some q ∧
      ∀ pages₁ pages₂ : Nat → Page β,
      pages₁ = Function.update pages p
        { pages p with cells := store (pages p).cells 0 (data.drop (data.length - position)) } →
      pages₂ = Function.update pages₁ q
        { pages₁ q with
          cells := store (pages₁ q).cells (size - (data.length - position)) (data.take (data.length - position)) } →
      Same pages pages₂ (some p) position ids ∧ Linked size pages₂ (some p) position ids (l.take (l.length - data.length) ++ data) := by
  obtain ⟨q, hq⟩ : ∃ q, (pages p).next = some q := by
    obtain ⟨p', -, hp, -, -, hcases⟩ := h.across (Nat.le_of_lt hgt) hlength hsize
    cases hp
    cases hcases with
    | inl hend => omega
    | inr hnext =>
      obtain ⟨q, hq, -⟩ := hnext
      exact ⟨q, hq⟩
  refine ⟨q, hq, ?_⟩
  intro pages₁ pages₂ h₁ h₂
  have htop : (data.drop (data.length - position)).length = position := by
    rw [List.length_drop]
    omega
  -- first what is in this page
  obtain ⟨hsame₁, hlinked₁⟩ := h.overwrite hnodup (Nat.le_of_eq htop)
  rw [htop, Nat.sub_self, ← h₁] at hsame₁ hlinked₁
  have hrest := (Rest.start h hnodup).changed hsame₁ hlinked₁
  have hl : (l.take (l.length - position) ++ data.drop (data.length - position)).length = l.length := by
    rw [List.length_append, List.length_take, htop]
    omega
  obtain ⟨p', rest, hp, hids, hbelow⟩ := hrest.across (Nat.le_refl position) (by rw [hl]; omega) (by omega)
  cases hp
  have htake : (l.take (l.length - position) ++ data.drop (data.length - position)).take (l.length - position) =
      l.take (l.length - position) := by
    rw [List.take_left']
    rw [List.length_take]
    omega
  rw [hl, htake, Nat.sub_self, Nat.sub_zero, hsame₁.next p, hq] at hbelow
  -- then what is in the page below
  have hbottom : (data.take (data.length - position)).length = data.length - position := by
    rw [List.length_take]
    omega
  have hfits : (data.take (data.length - position)).length ≤ size := by omega
  obtain ⟨hsame₂, hlinked₂⟩ := hbelow.linked.overwrite hbelow.nodup hfits
  rw [hbottom, ← h₂] at hsame₂ hlinked₂
  have hput := hbelow.put pages₂ _ hsame₂ hlinked₂
  have hnotin : p ∉ rest := by
    rw [hids, List.nodup_cons] at hnodup
    exact hnodup.1
  refine ⟨?_, ?_⟩
  · refine hsame₁.trans ⟨hsame₂.next, ?_, ?_⟩
    · intro r hr
      refine hsame₂.others r fun hin => hr ?_
      rw [hids]
      exact List.mem_cons_of_mem p hin
    · intro r hr i _
      rw [Option.some.injEq] at hr
      rw [← hr, hsame₂.others p hnotin]
  · have hdrop : (l.take (l.length - position) ++ data.drop (data.length - position)).drop (l.length - position) =
        data.drop (data.length - position) := by
      rw [List.drop_left']
      rw [List.length_take]
      omega
    rw [hdrop, List.append_nil, List.append_assoc, List.take_append_drop, List.take_take, List.length_take] at hput
    rw [show min (min (l.length - position) l.length - (data.length - position)) (l.length - position) =
      l.length - data.length by omega] at hput
    exact hput

end Paged
