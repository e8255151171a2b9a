import Mathlib.Data.Nat.Digits.Lemmas
import Mathlib.Data.List.DropRight
import Mathlib.Tactic.Ring
import Mathlib.Tactic.Linarith

/-!
# JJS.Lib.Radix

Numbers as little-endian lists of `w`-bit words. `val` is Mathlib's `Nat.ofDigits` at base `2 ^ w`;
`Trimmed` says that the most significant word, if there is one, is not zero, and `trim` removes the
leading zero words. A trimmed list is determined by its value (`Trimmed.ext`), and its length is the
least number of words that hold the value (`Trimmed.length_le_iff`).
-/

namespace Radix

variable {w : Nat}

/-- The number a little-endian word list denotes. -/
def val (ds : List (BitVec w)) : Nat := Nat.ofDigits (2 ^ w) (ds.map BitVec.toNat)

@[simp] theorem val_nil : val ([] : List (BitVec w)) = 0 := rfl

@[simp] theorem val_cons (d : BitVec w) (ds : List (BitVec w)) :
    val (d :: ds) = d.toNat + 2 ^ w * val ds := by
  simp [val, Nat.ofDigits_cons]

theorem val_append (as bs : List (BitVec w)) :
    val (as ++ bs) = val as + (2 ^ w) ^ as.length * val bs := by
  simp [val, Nat.ofDigits_append]

/-- The weight of the next word, with the base in front. -/
theorem weight_succ (w n : Nat) : (2 ^ w) ^ (n + 1) = 2 ^ w * (2 ^ w) ^ n := Nat.pow_succ'

theorem val_concat (as : List (BitVec w)) (d : BitVec w) :
    val (as ++ [d]) = val as + (2 ^ w) ^ as.length * d.toNat := by
  simp [val_append]

theorem val_lt (ds : List (BitVec w)) : val ds < (2 ^ w) ^ ds.length := by
  induction ds with
  | nil => simp
  | cons d ds ih =>
    have hd := d.isLt
    have : 2 ^ w * (val ds + 1) ≤ 2 ^ w * (2 ^ w) ^ ds.length := Nat.mul_le_mul_left _ ih
    rw [val_cons, List.length_cons, pow_succ, Nat.mul_comm ((2 ^ w) ^ ds.length)]
    rw [Nat.mul_add] at this
    omega

@[simp] theorem val_replicate_zero (n : Nat) : val (List.replicate n 0#w) = 0 := by
  induction n with
  | zero => rfl
  | succ n ih => simp [List.replicate_succ, ih]

/-- `n` words with every bit set denote the largest `n`-word number. -/
theorem val_eq_zero_iff_all (ds : List (BitVec w)) : val ds = 0 ↔ ds.all (· == 0#w) = true := by
  induction ds with
  | nil => exact iff_of_true rfl rfl
  | cons d ds ih =>
    have hpos := Nat.two_pow_pos w
    rw [val_cons, List.all_cons, Bool.and_eq_true, ← ih, beq_iff_eq, Nat.add_eq_zero_iff, Nat.mul_eq_zero]
    constructor
    · intro h
      exact ⟨BitVec.eq_of_toNat_eq h.1, h.2.resolve_left (Nat.ne_of_gt hpos)⟩
    · intro h
      rw [h.1, h.2]
      exact ⟨rfl, Or.inr rfl⟩

theorem val_replicate_ones (n : Nat) :
    val (List.replicate n (BitVec.allOnes w)) + 1 = (2 ^ w) ^ n := by
  induction n with
  | zero => rfl
  | succ n ih =>
    have hp : 0 < 2 ^ w := Nat.two_pow_pos w
    rw [List.replicate_succ, val_cons, BitVec.toNat_allOnes, pow_succ, ← ih, Nat.mul_comm, Nat.add_mul]
    rw [Nat.mul_comm]
    omega

theorem val_take_add_drop (ds : List (BitVec w)) {k : Nat} (hk : k ≤ ds.length) :
    val (ds.take k) + (2 ^ w) ^ k * val (ds.drop k) = val ds := by
  conv_rhs => rw [← List.take_append_drop k ds, val_append]
  rw [List.length_take, Nat.min_eq_left hk]

/-- The low words of a number are its residue. -/
theorem val_take (ds : List (BitVec w)) {k : Nat} (hk : k ≤ ds.length) :
    val (ds.take k) = val ds % (2 ^ w) ^ k := by
  have h := val_take_add_drop ds hk
  have hlt := val_lt (ds.take k)
  rw [List.length_take, Nat.min_eq_left hk] at hlt
  rw [← h, Nat.add_mul_mod_self_left, Nat.mod_eq_of_lt hlt]

/-- The high words of a number are its quotient. -/
theorem val_drop (ds : List (BitVec w)) {k : Nat} (hk : k ≤ ds.length) :
    val (ds.drop k) = val ds / (2 ^ w) ^ k := by
  have h := val_take_add_drop ds hk
  have hlt := val_lt (ds.take k)
  rw [List.length_take, Nat.min_eq_left hk] at hlt
  rw [← h, Nat.add_mul_div_left _ _ (Nat.pow_pos (Nat.two_pow_pos w)), Nat.div_eq_of_lt hlt, Nat.zero_add]

/-- Lists of one length that denote one number are equal. -/
theorem eq_of_val_eq {as bs : List (BitVec w)} (hl : as.length = bs.length) (hv : val as = val bs) :
    as = bs := by
  induction as generalizing bs with
  | nil => exact (List.length_eq_zero_iff.mp hl.symm).symm
  | cons a as ih =>
    cases bs with
    | nil => simp at hl
    | cons b bs =>
      rw [val_cons, val_cons] at hv
      have hm := congrArg (· % 2 ^ w) hv
      simp only [Nat.add_mul_mod_self_left, Nat.mod_eq_of_lt a.isLt, Nat.mod_eq_of_lt b.isLt] at hm
      have hab : a = b := BitVec.eq_of_toNat_eq hm
      subst hab
      have := Nat.eq_of_mul_eq_mul_left (Nat.two_pow_pos w) (Nat.add_left_cancel hv)
      rw [ih (by simpa using hl) this]

/-! ## Bits -/

theorem testBit_val_cons (d : BitVec w) (ds : List (BitVec w)) (i : Nat) :
    (val (d :: ds)).testBit i = if i < w then d.getLsbD i else (val ds).testBit (i - w) := by
  rw [val_cons, Nat.add_comm, Nat.testBit_two_pow_mul_add _ d.isLt]
  rfl

/-- A word-wise operation that the words above the shorter list pass through unchanged. -/
theorem testBit_val_zipWith_append {g : BitVec w → BitVec w → BitVec w} {f : Bool → Bool → Bool}
    (hg : ∀ x y i, i < w → (g x y).getLsbD i = f (x.getLsbD i) (y.getLsbD i)) (hf : ∀ b, f b false = b)
    (xs ys : List (BitVec w)) (hl : ys.length ≤ xs.length) (i : Nat) :
    (val (List.zipWith g xs ys ++ xs.drop ys.length)).testBit i =
      f ((val xs).testBit i) ((val ys).testBit i) := by
  induction ys generalizing xs i with
  | nil => simp [hf]
  | cons y ys ih =>
    cases xs with
    | nil => simp at hl
    | cons x xs =>
      simp only [List.zipWith_cons_cons, List.length_cons, List.drop_succ_cons, List.cons_append, testBit_val_cons]
      split
      · exact hg x y i ‹_›
      · exact ih xs (by simpa using hl) (i - w)

/-- A word-wise operation on lists of one length. -/
theorem testBit_val_zipWith {g : BitVec w → BitVec w → BitVec w} {f : Bool → Bool → Bool}
    (hg : ∀ x y i, i < w → (g x y).getLsbD i = f (x.getLsbD i) (y.getLsbD i)) (hf : f false false = false)
    (xs ys : List (BitVec w)) (hl : ys.length = xs.length) (i : Nat) :
    (val (List.zipWith g xs ys)).testBit i = f ((val xs).testBit i) ((val ys).testBit i) := by
  induction ys generalizing xs i with
  | nil =>
    have : xs = [] := List.length_eq_zero_iff.mp hl.symm
    subst this
    simp [hf]
  | cons y ys ih =>
    cases xs with
    | nil => simp at hl
    | cons x xs =>
      simp only [List.zipWith_cons_cons, testBit_val_cons]
      split
      · exact hg x y i ‹_›
      · exact ih xs (by simpa using hl) (i - w)

/-- A number has no bits above its words. -/
theorem testBit_eq_false {x k i : Nat} (hx : x < (2 ^ w) ^ k) (hi : w * k ≤ i) : x.testBit i = false := by
  apply Nat.testBit_lt_two_pow
  rw [← pow_mul] at hx
  exact Nat.lt_of_lt_of_le hx (Nat.pow_le_pow_right (by decide) hi)

/-- The low words keep the bits below them. -/
theorem testBit_mod_weight (x k i : Nat) :
    (x % (2 ^ w) ^ k).testBit i = (decide (i < w * k) && x.testBit i) := by
  rw [← pow_mul, Nat.testBit_mod_two_pow]

/-! ## Trimmed lists -/

/-- The most significant word, if any, is not zero. -/
def Trimmed (ds : List (BitVec w)) : Prop := ds.getLast? ≠ some 0#w

instance (ds : List (BitVec w)) : Decidable (Trimmed ds) := inferInstanceAs (Decidable (_ ≠ _))

@[simp] theorem trimmed_nil : Trimmed ([] : List (BitVec w)) := by simp [Trimmed]

theorem trimmed_concat {as : List (BitVec w)} {d : BitVec w} : Trimmed (as ++ [d]) ↔ d ≠ 0#w := by
  simp [Trimmed]

/-- Words in front of a non-empty trimmed list leave it trimmed. -/
theorem Trimmed.append_left (as : List (BitVec w)) {bs : List (BitVec w)} (hb : bs ≠ [])
    (h : Trimmed bs) : Trimmed (as ++ bs) := by
  rw [Trimmed, List.getLast?_append_of_ne_nil _ hb]; exact h

theorem Trimmed.of_append (as : List (BitVec w)) {bs : List (BitVec w)} (hb : bs ≠ []) (h : Trimmed (as ++ bs)) : Trimmed bs := by
  rw [Trimmed, List.getLast?_append_of_ne_nil _ hb] at h; exact h

theorem Trimmed.exists_concat {ds : List (BitVec w)} (h : Trimmed ds) (hne : ds ≠ []) :
    ∃ as d, ds = as ++ [d] ∧ d ≠ 0#w := by
  refine ⟨ds.dropLast, ds.getLast hne, (List.dropLast_append_getLast hne).symm, ?_⟩
  intro h0
  exact h (by rw [List.getLast?_eq_some_getLast hne, h0])

/-- A trimmed number uses its most significant word. -/
theorem Trimmed.pow_le_val {ds : List (BitVec w)} (h : Trimmed ds) (hne : ds ≠ []) :
    (2 ^ w) ^ (ds.length - 1) ≤ val ds := by
  obtain ⟨as, d, rfl, hd⟩ := h.exists_concat hne
  have hpos : 1 ≤ d.toNat := by
    rcases Nat.eq_zero_or_pos d.toNat with h0 | h0
    · exact absurd (BitVec.eq_of_toNat_eq (by simpa using h0)) hd
    · exact h0
  rw [val_concat, List.length_append, List.length_singleton, Nat.add_sub_cancel]
  calc (2 ^ w) ^ as.length = (2 ^ w) ^ as.length * 1 := (Nat.mul_one _).symm
    _ ≤ (2 ^ w) ^ as.length * d.toNat := Nat.mul_le_mul_left _ hpos
    _ ≤ val as + (2 ^ w) ^ as.length * d.toNat := Nat.le_add_left _ _

/-- A list whose value needs its most significant word is trimmed. -/
theorem trimmed_of_pow_le {ds : List (BitVec w)} (h : (2 ^ w) ^ (ds.length - 1) ≤ val ds) :
    Trimmed ds := by
  rcases List.eq_nil_or_concat ds with rfl | ⟨as, d, rfl⟩
  · exact trimmed_nil
  · rw [List.concat_eq_append] at h ⊢
    rw [trimmed_concat]
    rintro rfl
    have := val_lt as
    simp only [val_concat, List.length_append, List.length_singleton, Nat.add_sub_cancel,
      BitVec.toNat_zero, Nat.mul_zero, Nat.add_zero] at h
    omega

theorem Trimmed.val_pos {ds : List (BitVec w)} (h : Trimmed ds) (hne : ds ≠ []) : 0 < val ds :=
  Nat.lt_of_lt_of_le (Nat.pow_pos (Nat.two_pow_pos w)) (h.pow_le_val hne)

theorem Trimmed.val_eq_zero {ds : List (BitVec w)} (h : Trimmed ds) : val ds = 0 ↔ ds = [] := by
  constructor
  · intro h0
    by_contra hne
    have := h.val_pos hne
    omega
  · rintro rfl; rfl

/-- The length of a trimmed list is the least number of words that hold its value. -/
theorem Trimmed.length_le_iff {ds : List (BitVec w)} (hw : 0 < w) (h : Trimmed ds) {n : Nat} :
    ds.length ≤ n ↔ val ds < (2 ^ w) ^ n := by
  have hb : 1 < 2 ^ w := Nat.one_lt_two_pow (by omega)
  constructor
  · intro hl
    exact Nat.lt_of_lt_of_le (val_lt ds) (Nat.pow_le_pow_right (by omega) hl)
  · intro hv
    by_contra hl
    have hne : ds ≠ [] := by rintro rfl; simp at hl
    have h1 := h.pow_le_val hne
    have h2 : (2 ^ w) ^ n ≤ (2 ^ w) ^ (ds.length - 1) := Nat.pow_le_pow_right (by omega) (by omega)
    omega

/-- Trimmed lists are determined by their value. -/
theorem Trimmed.ext {as bs : List (BitVec w)} (hw : 0 < w) (ha : Trimmed as) (hb : Trimmed bs)
    (hv : val as = val bs) : as = bs := by
  have h1 : as.length ≤ bs.length := by
    rw [ha.length_le_iff hw, hv]; exact val_lt bs
  have h2 : bs.length ≤ as.length := by
    rw [hb.length_le_iff hw, ← hv]; exact val_lt as
  exact eq_of_val_eq (by omega) hv

/-- The shorter of two trimmed lists denotes the smaller number. -/
theorem Trimmed.val_lt_of_length_lt {as bs : List (BitVec w)} (hw : 0 < w) (hb : Trimmed bs)
    (hl : as.length < bs.length) : val as < val bs := by
  by_contra hv
  have := (hb.length_le_iff hw).mpr (Nat.lt_of_le_of_lt (by omega) (val_lt as))
  omega

/-! ## Removing leading zero words -/

/-- Drop the zero words at the most significant end. -/
def trim (ds : List (BitVec w)) : List (BitVec w) := ds.rdropWhile (· == 0#w)

@[simp] theorem trim_nil : trim ([] : List (BitVec w)) = [] := rfl

theorem trim_concat (as : List (BitVec w)) (d : BitVec w) :
    trim (as ++ [d]) = if d = 0#w then trim as else as ++ [d] := by
  simp [trim, List.rdropWhile_concat]

theorem trimmed_trim (ds : List (BitVec w)) : Trimmed (trim ds) := by
  induction ds using List.reverseRecOn with
  | nil => exact trimmed_nil
  | append_singleton as d ih =>
    rw [trim_concat]
    split
    · exact ih
    · exact trimmed_concat.mpr ‹_›

@[simp] theorem val_trim (ds : List (BitVec w)) : val (trim ds) = val ds := by
  induction ds using List.reverseRecOn with
  | nil => rfl
  | append_singleton as d ih =>
    rw [trim_concat]
    split
    · rename_i hd; subst hd; rw [ih, val_concat]; simp
    · rfl

theorem trim_length_le (ds : List (BitVec w)) : (trim ds).length ≤ ds.length :=
  (List.rdropWhile_prefix _ _).length_le

end Radix
