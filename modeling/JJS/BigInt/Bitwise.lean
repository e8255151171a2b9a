import JJS.BigInt.Value
import Mathlib.Data.Int.Bitwise

/-!
# JJS.BigInt.Bitwise

The bitwise operations on BigInt values. `ecma_big_uint_bitwise_op` works on magnitudes: it can
subtract one from an operand while it reads it and add one to the result, which is what the
two's complement of a negative number needs, since `-x` has the complement of the bits of `x - 1`.

`decreaseDigits` are the digits of an operand after the subtraction. Results: the loop combines
these digits (`bitwiseLoop_eq`), the routine computes a number with the combined bits
(`ecmaBigUintBitwiseOp_eq`), and `ecma_bigint_and`, `ecma_bigint_or` and `ecma_bigint_xor` combine the
bits of the infinite two's complement (`bigint_bitwise_testBit`).
-/

namespace JJS
namespace BigInt

open Radix

/-- `ecma_big_uint_bitwise_operation_types_t`. -/
inductive BitwiseOp where
  | and
  | or
  | xor
  | andNot
  deriving DecidableEq, Repr

namespace BitwiseOp

def digit : BitwiseOp → Digit → Digit → Digit
  | .and, l, r => l &&& r
  | .or, l, r => l ||| r
  | .xor, l, r => l ^^^ r
  | .andNot, l, r => l &&& ~~~r

def bit : BitwiseOp → Bool → Bool → Bool
  | .and, l, r => l && r
  | .or, l, r => l || r
  | .xor, l, r => l ^^ r
  | .andNot, l, r => l && !r

theorem getLsbD_digit (op : BitwiseOp) (x y : Digit) (i : Nat) (hi : i < 32) :
    (op.digit x y).getLsbD i = op.bit (x.getLsbD i) (y.getLsbD i) := by
  cases op <;> simp [digit, bit, hi]

end BitwiseOp

/-- `ecma_big_uint_bitwise_options_t`. -/
structure BitwiseOptions where
  decreaseLeft : Bool
  decreaseRight : Bool
  increaseResult : Bool

/-- When exactly one bit is set, invert both bits. -/
def BitwiseOptions.swap (opts : BitwiseOptions) : BitwiseOptions :=
  if opts.decreaseLeft != opts.decreaseRight then
    { opts with decreaseLeft := !opts.decreaseLeft, decreaseRight := !opts.decreaseRight }
  else opts

/-- The operands and options the digit loops work with: the longer operand is cut for `and`, the
right one for `and not`, and the other operations want the longer operand on the left. -/
def bitwiseOperands (op : BitwiseOp) (opts : BitwiseOptions) (left right : List Digit) :
    List Digit × List Digit × BitwiseOptions :=
  match op with
  | .and =>
    if right.length < left.length then (left.take right.length, right, opts)
    else (left, right.take left.length, opts)
  | .andNot => (left, right.take left.length, opts)
  | _ => if right.length ≤ left.length then (left, right, opts) else (right, left, opts.swap)

/-- The paths without a decreased operand. -/
def bitwisePlain (op : BitwiseOp) (left right : List Digit) : Res (List Digit) :=
  let result := List.zipWith op.digit left right
  match op with
  | .and => normalizeIfZero result
  | .or => .ok (result ++ left.drop right.length)
  | .xor =>
    if right.length < left.length then .ok (result ++ left.drop right.length) else normalizeIfZero result
  | .andNot => .error .assertion

/-- The borrow of an operand that is decreased: it goes on while the digits are all ones. -/
def bitwiseBorrow (digit carry : Digit) : Digit := if digit ≠ maxDigit then 0#32 else carry

/-- The loop over the digits of the right operand: the digits written and the left borrow. -/
def bitwiseLoop (op : BitwiseOp) : List Digit → List Digit → Digit → Digit → List Digit × Digit
  | l :: ls, r :: rs, leftCarry, rightCarry =>
    let left := l - leftCarry
    let right := r - rightCarry
    let t := bitwiseLoop op ls rs (bitwiseBorrow left leftCarry) (bitwiseBorrow right rightCarry)
    (op.digit left right :: t.1, t.2)
  | _, _, leftCarry, _ => ([], leftCarry)

def bitwiseFinish (increaseResult : Bool) (result : List Digit) : Res (List Digit) :=
  if increaseResult then ecmaBigUintIncreaseResult result else normalizeIfZero result

/-- The digits of the left operand above the right one. -/
def bitwiseTail (op : BitwiseOp) (increaseResult : Bool) (written rest : List Digit) (leftCarry : Digit) :
    Res (List Digit) :=
  if op ≠ .and then do
    let t ← subRest leftCarry rest
    if t.2 ≠ [] then
      if increaseResult then ecmaBigUintIncreaseResult (written ++ t.1 ++ t.2) else .ok (written ++ t.1 ++ t.2)
    else bitwiseFinish increaseResult (written ++ t.1)
  else bitwiseFinish increaseResult written

def carryFlag (b : Bool) : Digit := if b then 1#32 else 0#32

/-- `ecma_big_uint_bitwise_op`. -/
def ecmaBigUintBitwiseOp (op : BitwiseOp) (opts : BitwiseOptions) (left right : List Digit) : Res (List Digit) := do
  assertDigits left
  assertDigits right
  let s := bitwiseOperands op opts left right
  ecmaBigintCreate (4 * s.1.length)
  if !s.2.2.decreaseLeft && !s.2.2.decreaseRight then do
    jjsAssert (!s.2.2.increaseResult)
    bitwisePlain op s.1 s.2.1
  else
    let t := bitwiseLoop op s.1 s.2.1 (carryFlag s.2.2.decreaseLeft) (carryFlag s.2.2.decreaseRight)
    bitwiseTail op s.2.2.increaseResult t.1 (s.1.drop s.2.1.length) t.2

/-! ## Decreased operands -/

/-- The digits of an operand that is decreased while it is read, and the last borrow. -/
def decreaseDigits : List Digit → Digit → List Digit × Digit
  | [], carry => ([], carry)
  | d :: ds, carry =>
    let t := decreaseDigits ds (bitwiseBorrow (d - carry) carry)
    ((d - carry) :: t.1, t.2)

theorem bitwiseBorrow_le {c : Digit} (hc : c.toNat ≤ 1) (d : Digit) : (bitwiseBorrow d c).toNat ≤ 1 := by
  unfold bitwiseBorrow
  split
  · exact Nat.zero_le _
  · exact hc

theorem decreaseDigits_val (ds : List Digit) {c : Digit} (hc : c.toNat ≤ 1) :
    (decreaseDigits ds c).1.length = ds.length ∧ (decreaseDigits ds c).2.toNat ≤ 1 ∧
      val (decreaseDigits ds c).1 + c.toNat = val ds + (2 ^ 32) ^ ds.length * (decreaseDigits ds c).2.toNat := by
  induction ds generalizing c with
  | nil => exact ⟨rfl, hc, by simp [decreaseDigits]⟩
  | cons d ds ih =>
    have hd := d.isLt
    have hstep : (d - c).toNat + c.toNat = d.toNat + 2 ^ 32 * (bitwiseBorrow (d - c) c).toNat := by
      unfold bitwiseBorrow
      have hmax := toNat_maxDigit
      by_cases h0 : c = 0#32
      · subst h0
        split <;> simp
      · have hc1 : c.toNat = 1 := by have := toNat_pos h0; omega
        split
        · rename_i hne
          have hd0 : d.toNat ≠ 0 := by
            intro hd0
            apply hne
            apply BitVec.eq_of_toNat_eq
            bv_omega
          rw [BitVec.toNat_zero]
          bv_omega
        · rename_i hne
          have heq : (d - c).toNat = 2 ^ 32 - 1 := by
            rw [not_ne_iff.mp hne, hmax]
          rw [hc1]
          bv_omega
    obtain ⟨hl, hb, hv⟩ := ih (bitwiseBorrow_le hc (d - c))
    refine ⟨by simp [decreaseDigits, hl], hb, ?_⟩
    simp only [decreaseDigits, val_cons, List.length_cons, weight_succ, Nat.mul_assoc]
    generalize (2 ^ 32) ^ ds.length * (decreaseDigits ds (bitwiseBorrow (d - c) c)).2.toNat = x at hv ⊢
    omega

theorem decreaseDigits_append (xs ys : List Digit) (c : Digit) :
    decreaseDigits (xs ++ ys) c =
      ((decreaseDigits xs c).1 ++ (decreaseDigits ys (decreaseDigits xs c).2).1,
        (decreaseDigits ys (decreaseDigits xs c).2).2) := by
  induction xs generalizing c with
  | nil => rfl
  | cons x xs ih => simp [decreaseDigits, ih]

/-- An operand that is large enough has no borrow left. -/
theorem decreaseDigits_of_le {ds : List Digit} {c : Digit} (hc : c.toNat ≤ 1) (h : c.toNat ≤ val ds) :
    (decreaseDigits ds c).2 = 0#32 ∧ val (decreaseDigits ds c).1 + c.toNat = val ds := by
  obtain ⟨hl, hb, hv⟩ := decreaseDigits_val ds hc
  have hlt := val_lt (decreaseDigits ds c).1
  rw [hl] at hlt
  have hz : (decreaseDigits ds c).2.toNat = 0 := by
    by_contra hne
    have : (decreaseDigits ds c).2.toNat = 1 := by omega
    rw [this] at hv
    omega
  refine ⟨BitVec.eq_of_toNat_eq hz, ?_⟩
  rw [hz] at hv
  omega

/-- The loop combines the digits of the two decreased operands. -/
theorem bitwiseLoop_eq (op : BitwiseOp) (ls rs : List Digit) (hl : rs.length ≤ ls.length) (lc rc : Digit) :
    bitwiseLoop op ls rs lc rc =
      (List.zipWith op.digit (decreaseDigits ls lc).1 (decreaseDigits rs rc).1,
        (decreaseDigits (ls.take rs.length) lc).2) := by
  induction rs generalizing ls lc rc with
  | nil => cases ls <;> simp [bitwiseLoop, decreaseDigits]
  | cons r rs ih =>
    cases ls with
    | nil => simp at hl
    | cons l ls => simp [bitwiseLoop, decreaseDigits, ih ls (by simpa using hl)]

/-- Decreasing the digits above is what `subRest` does. -/
theorem subRest_eq {rest : List Digit} {c : Digit} (hc : c.toNat ≤ 1) (h : c.toNat ≤ val rest) :
    ∃ ws unread, subRest c rest = .ok (ws, unread) ∧ unread <:+ rest ∧ ws ++ unread = (decreaseDigits rest c).1 := by
  obtain ⟨hl, -, -⟩ := decreaseDigits_val rest hc
  obtain ⟨-, hv⟩ := decreaseDigits_of_le hc h
  unfold subRest
  by_cases h0 : c = 0#32
  · subst h0
    refine ⟨[], rest, by simp, List.suffix_refl _, eq_of_val_eq (by simp [hl]) (by simpa using hv.symm)⟩
  · have hc1 : c.toNat = 1 := by have := toNat_pos h0; omega
    obtain ⟨ws, unread, he, hs, hlen, hval⟩ := subBorrow_ok (show 0 < val rest by omega)
    refine ⟨ws, unread, by rw [if_pos h0, he], hs, eq_of_val_eq (by rw [hlen, hl]) ?_⟩
    omega

/-- The low digits of a decreased operand do not depend on the digits above them. -/
theorem decreaseDigits_take {xs : List Digit} {c : Digit} (hc : c.toNat ≤ 1) (h : c.toNat ≤ val xs) {k : Nat}
    (hk : k ≤ xs.length) :
    val (decreaseDigits (xs.take k) c).1 = (val xs - c.toNat) % (2 ^ 32) ^ k := by
  obtain ⟨-, hv⟩ := decreaseDigits_of_le hc h
  obtain ⟨hl, -, -⟩ := decreaseDigits_val (xs.take k) hc
  rw [List.length_take, Nat.min_eq_left hk] at hl
  have happ := congrArg Prod.fst (decreaseDigits_append (xs.take k) (xs.drop k) c)
  rw [List.take_append_drop] at happ
  have hlt := val_lt (decreaseDigits (xs.take k) c).1
  rw [hl] at hlt
  rw [happ, val_append, hl] at hv
  rw [← hv, Nat.add_sub_cancel, Nat.add_mul_mod_self_left, Nat.mod_eq_of_lt hlt]

/-! ## The routine -/

def increment (increaseResult : Bool) : Nat := if increaseResult then 1 else 0

theorem bitwiseFinish_eq (inc : Bool) {result : List Digit} (hne : result ≠ []) (hfit : 4 * result.length ≤ maxSize) :
    ∃ ds, Trimmed ds ∧ val ds = val result + increment inc ∧ bitwiseFinish inc result = boxed ds := by
  unfold bitwiseFinish increment
  cases inc with
  | true => exact ecmaBigUintIncreaseResult_eq hne hfit
  | false =>
    have hle := trim_length_le result
    refine ⟨trim result, trimmed_trim _, by simp, ?_⟩
    simp only [Bool.false_eq_true, if_false]
    rw [normalizeIfZero_ok hfit, boxed_ok (by omega)]

/-- The operation on operands in the order of the loops, where the left one is not cut. -/
theorem bitwiseTail_eq {op : BitwiseOp} (hop : op ≠ .and) (inc : Bool) {l r : List Digit} {lc rc : Digit}
    (hlc : lc.toNat ≤ 1) (hrc : rc.toNat ≤ 1) (hn : Trimmed l) (hne : l ≠ []) (hlen : r.length ≤ l.length)
    (hfit : 4 * l.length ≤ maxSize) :
    ∃ ds, Trimmed ds ∧
      val ds = val (List.zipWith op.digit (decreaseDigits l lc).1 (decreaseDigits r rc).1 ++
        (decreaseDigits l lc).1.drop (decreaseDigits r rc).1.length) + increment inc ∧
      bitwiseTail op inc (bitwiseLoop op l r lc rc).1 (l.drop r.length) (bitwiseLoop op l r lc rc).2 =
        boxed ds := by
  have hpos : lc.toNat ≤ val l := Nat.le_trans hlc (hn.val_pos hne)
  obtain ⟨hrl, -, -⟩ := decreaseDigits_val r hrc
  obtain ⟨hll, -, -⟩ := decreaseDigits_val l hlc
  obtain ⟨hpl, hpb, -⟩ := decreaseDigits_val (l.take r.length) hlc
  rw [List.length_take, Nat.min_eq_left hlen] at hpl
  have happ := decreaseDigits_append (l.take r.length) (l.drop r.length) lc
  rw [List.take_append_drop] at happ
  have hborrow := (decreaseDigits_of_le hlc hpos).1
  rw [happ] at hborrow
  -- the borrow that is left for the upper digits can be taken from them
  have hle : (decreaseDigits (l.take r.length) lc).2.toNat ≤ val (l.drop r.length) := by
    obtain ⟨-, -, hv⟩ := decreaseDigits_val (l.drop r.length) hpb
    rw [hborrow] at hv
    simp only [BitVec.toNat_zero, Nat.mul_zero, Nat.add_zero] at hv
    omega
  obtain ⟨ws, unread, he, hs, hws⟩ := subRest_eq hpb hle
  rw [bitwiseLoop_eq op l r hlen, bitwiseTail, if_pos hop, he, ok_bind, hrl]
  have hdrop : (decreaseDigits l lc).1.drop r.length = ws ++ unread := by
    rw [happ, hws]
    exact List.drop_left' hpl
  have hres : List.zipWith op.digit (decreaseDigits l lc).1 (decreaseDigits r rc).1 ++ ws ++ unread =
      List.zipWith op.digit (decreaseDigits l lc).1 (decreaseDigits r rc).1 ++
        (decreaseDigits l lc).1.drop r.length := by
    rw [List.append_assoc, hdrop]
  have hlres : (List.zipWith op.digit (decreaseDigits l lc).1 (decreaseDigits r rc).1 ++
      (decreaseDigits l lc).1.drop r.length).length = l.length := by
    simp only [List.length_append, List.length_zipWith, List.length_drop, hll, hrl]
    omega
  have hnil : List.zipWith op.digit (decreaseDigits l lc).1 (decreaseDigits r rc).1 ++
      (decreaseDigits l lc).1.drop r.length ≠ [] := by
    rw [← List.length_pos_iff, hlres]
    exact List.length_pos_iff.mpr hne
  simp only []
  by_cases hu : unread = []
  · subst hu
    rw [if_neg (by simp)]
    rw [List.append_nil] at hres
    rw [hres]
    exact bitwiseFinish_eq inc hnil (by omega)
  · rw [if_pos hu, hres]
    cases inc with
    | true => exact ecmaBigUintIncreaseResult_eq hnil (by omega)
    | false =>
      refine ⟨_, ?_, rfl, by rw [boxed_ok (by omega)]; rfl⟩
      rw [← hres]
      exact trimmed_of_suffix hn (hs.trans (List.drop_suffix _ _)) hu

/-- The paths without a decreased operand compute the same digits. -/
theorem bitwisePlain_eq {op : BitwiseOp} (hop : op ≠ .andNot) {l r : List Digit} (hne : l ≠ [])
    (hn : op ≠ .and → Trimmed l) (hlen : r.length ≤ l.length) (hand : op = .and → r.length = l.length) (hfit : 4 * l.length ≤ maxSize) :
    ∃ ds, Trimmed ds ∧ val ds = val (List.zipWith op.digit l r ++ l.drop r.length) ∧
      bitwisePlain op l r = boxed ds := by
  have hlz : (List.zipWith op.digit l r).length = r.length := by simp; omega
  have hnorm : ∀ result : List Digit, 4 * result.length ≤ maxSize →
      ∃ ds, Trimmed ds ∧ val ds = val result ∧ normalizeIfZero result = boxed ds := by
    intro result hf
    have hle := trim_length_le result
    exact ⟨trim result, trimmed_trim _, val_trim _, by rw [normalizeIfZero_ok hf, boxed_ok (by omega)]⟩
  cases op with
  | and =>
    have heq := hand rfl
    rw [heq, List.drop_length, List.append_nil]
    exact hnorm _ (by omega)
  | or =>
    refine ⟨_, trimmed_of_pow_le ?_, rfl, by rw [boxed_ok (by simp; omega)]; rfl⟩
    have hbits := testBit_val_zipWith_append (BitwiseOp.getLsbD_digit .or) (fun b => Bool.or_false b) l r hlen
    have hor : val (List.zipWith (BitwiseOp.digit .or) l r ++ l.drop r.length) = val l ||| val r := by
      apply Nat.eq_of_testBit_eq
      intro i
      rw [hbits, Nat.testBit_or]
      rfl
    rw [hor]
    refine Nat.le_trans ?_ Nat.left_le_or
    rw [show (List.zipWith (BitwiseOp.digit .or) l r ++ l.drop r.length).length = l.length by
      rw [List.length_append, hlz, List.length_drop]; omega]
    exact (hn (by decide)).pow_le_val hne
  | xor =>
    unfold bitwisePlain
    simp only []
    split
    · rename_i hlt
      have hdne : l.drop r.length ≠ [] := by
        rw [← List.length_pos_iff, List.length_drop]
        omega
      exact ⟨_, trimmed_of_suffix (hn (by decide)) (List.drop_suffix _ _) hdne, rfl, by rw [boxed_ok (by simp; omega)]⟩
    · have heq : r.length = l.length := by omega
      rw [heq, List.drop_length, List.append_nil]
      exact hnorm _ (by omega)
  | andNot => exact absurd rfl hop

theorem carryFlag_le (b : Bool) : (carryFlag b).toNat ≤ 1 := by cases b <;> decide

theorem decreaseDigits_zero (ds : List Digit) : decreaseDigits ds 0#32 = (ds, 0#32) := by
  induction ds with
  | nil => rfl
  | cons d ds ih =>
    have hb : bitwiseBorrow (d - 0#32) 0#32 = 0#32 := by
      unfold bitwiseBorrow
      split <;> rfl
    rw [decreaseDigits, hb, ih]
    simp

/-- The options `ecma_bigint_and`, `ecma_bigint_or` and `ecma_bigint_xor` use: without a decreased
operand there is no increase, and no `and not`. -/
def BitwiseOptions.Valid (op : BitwiseOp) (opts : BitwiseOptions) : Prop :=
  (opts.decreaseLeft || opts.decreaseRight) ∨ (op ≠ .andNot ∧ opts.increaseResult = false)

/-- The digits before the increase, for operands in the order of the loops. -/
def combinedDigits (op : BitwiseOp) (opts : BitwiseOptions) (l r : List Digit) : List Digit :=
  let left := (decreaseDigits l (carryFlag opts.decreaseLeft)).1
  let right := (decreaseDigits r (carryFlag opts.decreaseRight)).1
  List.zipWith op.digit left right ++ left.drop right.length

/-- The rest of the routine, once the operands are in order. -/
theorem bitwiseDigits_eq {op : BitwiseOp} {opts : BitwiseOptions} {l r : List Digit} (hopt : opts.Valid op)
    (hne : l ≠ []) (hn : op ≠ .and → Trimmed l) (hlen : r.length ≤ l.length)
    (hand : op = .and → r.length = l.length) (hfit : 4 * l.length ≤ maxSize) :
    ∃ ds, Trimmed ds ∧ val ds = val (combinedDigits op opts l r) + increment opts.increaseResult ∧
      (if !opts.decreaseLeft && !opts.decreaseRight then do
        jjsAssert (!opts.increaseResult)
        bitwisePlain op l r
      else
        let t := bitwiseLoop op l r (carryFlag opts.decreaseLeft) (carryFlag opts.decreaseRight)
        bitwiseTail op opts.increaseResult t.1 (l.drop r.length) t.2) = boxed ds := by
  by_cases hplain : !opts.decreaseLeft && !opts.decreaseRight
  · have hdl : opts.decreaseLeft = false := by simp at hplain; exact hplain.1
    have hdr : opts.decreaseRight = false := by simp at hplain; exact hplain.2
    obtain ⟨hop, hinc⟩ := hopt.resolve_left (by simp [hdl, hdr])
    obtain ⟨ds, hdn, hdv, hde⟩ := bitwisePlain_eq hop hne hn hlen hand hfit
    refine ⟨ds, hdn, ?_, ?_⟩
    · simp [combinedDigits, hdl, hdr, carryFlag, decreaseDigits_zero, hdv, hinc, increment]
    · rw [if_pos hplain, hinc, jjsAssert_ok (by decide), ok_bind, hde]
  · rw [if_neg hplain]
    simp only [combinedDigits]
    have hlc := carryFlag_le opts.decreaseLeft
    have hrc := carryFlag_le opts.decreaseRight
    by_cases hop : op = .and
    · obtain ⟨hll, -, -⟩ := decreaseDigits_val l hlc
      obtain ⟨hrl, -, -⟩ := decreaseDigits_val r hrc
      have heq := hand hop
      rw [bitwiseLoop_eq op l r hlen, bitwiseTail, if_neg (by simpa using hop), hrl, heq, ← hll, List.drop_length,
        List.append_nil]
      have hzl : (List.zipWith op.digit (decreaseDigits l (carryFlag opts.decreaseLeft)).1
          (decreaseDigits r (carryFlag opts.decreaseRight)).1).length = l.length := by
        rw [List.length_zipWith, hll, hrl, heq, Nat.min_self]
      refine bitwiseFinish_eq _ ?_ (by omega)
      rw [← List.length_pos_iff, hzl]
      exact List.length_pos_iff.mpr hne
    · exact bitwiseTail_eq hop _ hlc hrc (hn hop) hne hlen hfit

/-- The bits of the combined digits, when the operations can pass the upper digits through. -/
theorem combinedDigits_testBit {op : BitwiseOp} {opts : BitwiseOptions} {l r : List Digit} (hop : op ≠ .and)
    (hlen : r.length ≤ l.length) (i : Nat) :
    (val (combinedDigits op opts l r)).testBit i =
      op.bit ((val (decreaseDigits l (carryFlag opts.decreaseLeft)).1).testBit i)
        ((val (decreaseDigits r (carryFlag opts.decreaseRight)).1).testBit i) := by
  obtain ⟨hll, -, -⟩ := decreaseDigits_val l (carryFlag_le opts.decreaseLeft)
  obtain ⟨hrl, -, -⟩ := decreaseDigits_val r (carryFlag_le opts.decreaseRight)
  refine testBit_val_zipWith_append (BitwiseOp.getLsbD_digit op) ?_ _ _ (by omega) i
  intro b
  cases op with
  | and => exact absurd rfl hop
  | or => simp [BitwiseOp.bit]
  | xor => simp [BitwiseOp.bit]
  | andNot => simp [BitwiseOp.bit]

theorem combinedDigits_testBit_and {opts : BitwiseOptions} {l r : List Digit} (hlen : r.length = l.length) (i : Nat) :
    (val (combinedDigits .and opts l r)).testBit i =
      ((val (decreaseDigits l (carryFlag opts.decreaseLeft)).1).testBit i &&
        (val (decreaseDigits r (carryFlag opts.decreaseRight)).1).testBit i) := by
  obtain ⟨hll, -, -⟩ := decreaseDigits_val l (carryFlag_le opts.decreaseLeft)
  obtain ⟨hrl, -, -⟩ := decreaseDigits_val r (carryFlag_le opts.decreaseRight)
  rw [combinedDigits, hrl, hlen, ← hll, List.drop_length, List.append_nil]
  exact testBit_val_zipWith (BitwiseOp.getLsbD_digit .and) rfl _ _ (by omega) i

/-- An operation that a zero bit on the left makes zero does not see the digits that are cut. -/
theorem testBit_cut {f : Bool → Bool → Bool} (hf : ∀ b, f false b = false) {x k : Nat} (hx : x < (2 ^ 32) ^ k)
    (y i : Nat) : f (x.testBit i) ((y % (2 ^ 32) ^ k).testBit i) = f (x.testBit i) (y.testBit i) := by
  rw [testBit_mod_weight]
  by_cases hi : i < 32 * k
  · simp [hi]
  · rw [testBit_eq_false hx (by omega), hf, hf]

theorem BitwiseOptions.swap_spec (opts : BitwiseOptions) : opts.swap.decreaseLeft = opts.decreaseRight ∧
    opts.swap.decreaseRight = opts.decreaseLeft ∧ opts.swap.increaseResult = opts.increaseResult := by
  obtain ⟨dl, dr, inc⟩ := opts
  cases dl <;> cases dr <;> exact ⟨rfl, rfl, rfl⟩

/-- An operand as the routine reads it. -/
def operand (value : List Digit) (decrease : Bool) : Nat := val value - (carryFlag decrease).toNat

theorem operand_lt (value : List Digit) (decrease : Bool) : operand value decrease < (2 ^ 32) ^ value.length :=
  Nat.lt_of_le_of_lt (Nat.sub_le _ _) (val_lt value)

theorem val_decreased {value : List Digit} (hn : Trimmed value) (hne : value ≠ []) (decrease : Bool) :
    val (decreaseDigits value (carryFlag decrease)).1 = operand value decrease := by
  have hc := carryFlag_le decrease
  obtain ⟨-, hv⟩ := decreaseDigits_of_le hc (Nat.le_trans hc (hn.val_pos hne))
  rw [operand]
  omega

theorem val_decreased_take {value : List Digit} (hn : Trimmed value) (hne : value ≠ []) (decrease : Bool) {k : Nat}
    (hk : k ≤ value.length) :
    val (decreaseDigits (value.take k) (carryFlag decrease)).1 = operand value decrease % (2 ^ 32) ^ k := by
  have hc := carryFlag_le decrease
  exact decreaseDigits_take hc (Nat.le_trans hc (hn.val_pos hne)) hk

/-- What the loops need of the operands in their order. -/
structure LoopOperands (op : BitwiseOp) (opts : BitwiseOptions) (left right l r : List Digit) (o : BitwiseOptions) :
    Prop where
  valid : o.Valid op
  increase : o.increaseResult = opts.increaseResult
  ne_nil : l ≠ []
  trimmed : op ≠ .and → Trimmed l
  length_le : r.length ≤ l.length
  length_eq : op = .and → r.length = l.length
  size : l.length ≤ left.length ∨ l.length ≤ right.length
  bits : ∀ i, (val (combinedDigits op o l r)).testBit i =
    op.bit ((operand left opts.decreaseLeft).testBit i) ((operand right opts.decreaseRight).testBit i)

section Operands

variable {opts : BitwiseOptions} {left right : List Digit} (hl : Trimmed left) (hr : Trimmed right)
  (hlne : left ≠ []) (hrne : right ≠ [])

include hl hr hlne hrne

theorem operands_and (hopt : opts.Valid .and) :
    ∃ l r o, bitwiseOperands .and opts left right = (l, r, o) ∧ LoopOperands .and opts left right l r o := by
  rw [bitwiseOperands]
  split
  · rename_i hlt
    refine ⟨left.take right.length, right, opts, rfl, hopt, rfl, ?_, fun h => absurd rfl h, by simp; omega,
      fun _ => by simp; omega, Or.inl (by simp), ?_⟩
    · rw [← List.length_pos_iff, List.length_take, Nat.min_eq_left (by omega)]
      exact List.length_pos_iff.mpr hrne
    · intro i
      have hcut := testBit_cut (f := fun a b => a && b) (fun _ => rfl) (operand_lt right opts.decreaseRight)
        (operand left opts.decreaseLeft) i
      rw [combinedDigits_testBit_and (by simp; omega), val_decreased_take hl hlne _ (by omega),
        val_decreased hr hrne, Bool.and_comm, hcut, Bool.and_comm]
      rfl
  · rename_i hge
    refine ⟨left, right.take left.length, opts, rfl, hopt, rfl, hlne, fun h => absurd rfl h, by simp,
      fun _ => by simp; omega, Or.inl (Nat.le_refl _), ?_⟩
    intro i
    rw [combinedDigits_testBit_and (by simp; omega), val_decreased_take hr hrne _ (by omega), val_decreased hl hlne]
    exact testBit_cut (f := fun a b => a && b) (fun _ => rfl) (operand_lt left opts.decreaseLeft) _ i

theorem operands_andNot (hopt : opts.Valid .andNot) :
    ∃ l r o, bitwiseOperands .andNot opts left right = (l, r, o) ∧ LoopOperands .andNot opts left right l r o := by
  refine ⟨left, right.take left.length, opts, rfl, hopt, rfl, hlne, fun _ => hl, by simp, nofun,
    Or.inl (Nat.le_refl _), ?_⟩
  intro i
  rw [combinedDigits_testBit (by decide) (by simp), val_decreased hl hlne]
  by_cases hlt : left.length ≤ right.length
  · rw [val_decreased_take hr hrne _ hlt]
    exact testBit_cut (f := fun a b => a && !b) (fun _ => rfl) (operand_lt left opts.decreaseLeft) _ i
  · rw [List.take_of_length_le (by omega), val_decreased hr hrne]

/-- The two operations that swap their operands are symmetric. -/
theorem operands_swap {op : BitwiseOp} (hop : op = .or ∨ op = .xor) (hopt : opts.Valid op) :
    ∃ l r o, bitwiseOperands op opts left right = (l, r, o) ∧ LoopOperands op opts left right l r o := by
  have hand : op ≠ .and := by rcases hop with rfl | rfl <;> decide
  have hdef : bitwiseOperands op opts left right =
      if right.length ≤ left.length then (left, right, opts) else (right, left, opts.swap) := by
    rcases hop with rfl | rfl <;> rfl
  have hcomm : ∀ x y, op.bit x y = op.bit y x := by
    intro x y
    rcases hop with rfl | rfl
    · exact Bool.or_comm x y
    · exact Bool.xor_comm x y
  rw [hdef]
  split
  · rename_i hle
    refine ⟨left, right, opts, rfl, hopt, rfl, hlne, fun _ => hl, hle, fun h => absurd h hand,
      Or.inl (Nat.le_refl _), ?_⟩
    intro i
    rw [combinedDigits_testBit hand hle, val_decreased hl hlne, val_decreased hr hrne]
  · rename_i hlt
    obtain ⟨hsl, hsr, hsi⟩ := opts.swap_spec
    refine ⟨right, left, opts.swap, rfl, ?_, hsi, hrne, fun _ => hr, by omega, fun h => absurd h hand,
      Or.inr (Nat.le_refl _), ?_⟩
    · rw [BitwiseOptions.Valid, hsl, hsr, hsi, Bool.or_comm]
      exact hopt
    · intro i
      rw [combinedDigits_testBit hand (by omega), hsl, hsr, val_decreased hl hlne, val_decreased hr hrne, hcomm]

/-- The routine computes a number with the combined bits, one more with the increase. -/
theorem ecmaBigUintBitwiseOp_eq {op : BitwiseOp} (hopt : opts.Valid op) (hlf : 4 * left.length ≤ maxSize)
    (hrf : 4 * right.length ≤ maxSize) :
    ∃ m ds, (∀ i, m.testBit i =
        op.bit ((operand left opts.decreaseLeft).testBit i) ((operand right opts.decreaseRight).testBit i)) ∧
      Trimmed ds ∧ val ds = m + increment opts.increaseResult ∧
      ecmaBigUintBitwiseOp op opts left right = boxed ds := by
  obtain ⟨l, r, o, he, hops⟩ : ∃ l r o, bitwiseOperands op opts left right = (l, r, o) ∧
      LoopOperands op opts left right l r o := by
    cases op with
    | and => exact operands_and hl hr hlne hrne hopt
    | andNot => exact operands_andNot hl hr hlne hrne hopt
    | or => exact operands_swap hl hr hlne hrne (Or.inl rfl) hopt
    | xor => exact operands_swap hl hr hlne hrne (Or.inr rfl) hopt
  have hfit : 4 * l.length ≤ maxSize := by
    rcases hops.size with h | h <;> omega
  obtain ⟨ds, hdn, hdv, hde⟩ :=
    bitwiseDigits_eq hops.valid hops.ne_nil hops.trimmed hops.length_le hops.length_eq hfit
  refine ⟨val (combinedDigits op o l r), ds, hops.bits, hdn, by rw [hdv, hops.increase], ?_⟩
  rw [ecmaBigUintBitwiseOp, assertDigits_ok hl hlne, ok_bind, assertDigits_ok hr hrne, ok_bind, he]
  simp only []
  rw [ecmaBigintCreate_ok (List.length_pos_iff.mpr hops.ne_nil) hfit, ok_bind]
  exact hde

end Operands

/-! ## Signed operations -/

/-- `ecma_bigint_bitwise_op`. -/
def ecmaBigintBitwiseOp (op : BitwiseOp) (opts : BitwiseOptions) (left right : Block) : Res Block := do
  let digits ← ecmaBigUintBitwiseOp op opts left.digits right.digits
  .ok (signedBlock opts.increaseResult digits)

/-- `ecma_bigint_and`. -/
def ecmaBigintAnd (left right : Block) : Res Block :=
  if left = Block.zero ∨ right = Block.zero then .ok Block.zero
  else if !left.sign then
    if !right.sign then ecmaBigintBitwiseOp .and ⟨false, false, false⟩ left right
    -- x & (-y) == x & ~(y-1) == x &~ (y-1)
    else ecmaBigintBitwiseOp .andNot ⟨false, true, false⟩ left right
  else if !right.sign then ecmaBigintBitwiseOp .andNot ⟨false, true, false⟩ right left
  -- (-x) & (-y) == ~(x-1) & ~(y-1) == ~((x-1) | (y-1)) == -(((x-1) | (y-1)) + 1)
  else ecmaBigintBitwiseOp .or ⟨true, true, true⟩ left right

/-- `ecma_bigint_or`. -/
def ecmaBigintOr (left right : Block) : Res Block :=
  if left = Block.zero then .ok right
  else if right = Block.zero then .ok left
  else if !left.sign then
    if !right.sign then ecmaBigintBitwiseOp .or ⟨false, false, false⟩ left right
    -- x | (-y) == x | ~(y-1) == ~((y-1) &~ x) == -(((y-1) &~ x) + 1)
    else ecmaBigintBitwiseOp .andNot ⟨true, false, true⟩ right left
  else if !right.sign then ecmaBigintBitwiseOp .andNot ⟨true, false, true⟩ left right
  -- (-x) | (-y) == ~(x-1) | ~(y-1) == ~((x-1) & (y-1)) = -(((x-1) & (y-1)) + 1)
  else ecmaBigintBitwiseOp .and ⟨true, true, true⟩ left right

/-- `ecma_bigint_xor`. -/
def ecmaBigintXor (left right : Block) : Res Block :=
  if left = Block.zero then .ok right
  else if right = Block.zero then .ok left
  else if !left.sign then
    if !right.sign then ecmaBigintBitwiseOp .xor ⟨false, false, false⟩ left right
    -- x ^ (-y) == x ^ ~(y-1) == ~(x ^ (y-1)) == -((x ^ (y-1)) + 1)
    else ecmaBigintBitwiseOp .xor ⟨false, true, true⟩ left right
  else if !right.sign then ecmaBigintBitwiseOp .xor ⟨true, false, true⟩ left right
  -- (-x) ^ (-y) == ~(x-1) ^ ~(y-1) == (x-1) ^ (y-1)
  else ecmaBigintBitwiseOp .xor ⟨true, true, false⟩ left right

/-- The two's complement of a negative value is the complement of its magnitude less one. -/
theorem testBit_toInt {v : Value} (hne : v.digits ≠ []) (i : Nat) :
    v.toInt.testBit i = (v.sign ^^ (operand v.digits v.sign).testBit i) := by
  have hpos := v.trimmed.val_pos hne
  rw [toInt_eq]
  cases v.sign with
  | true =>
    obtain ⟨m, hm⟩ : ∃ m, val v.digits = m + 1 := ⟨val v.digits - 1, by omega⟩
    have hop : operand v.digits true = m := by rw [operand, hm]; rfl
    rw [if_pos rfl, hm, hop, Bool.true_xor]
    rfl
  | false => simp [operand, carryFlag, Int.testBit]

/-- What `ecma_bigint_bitwise_op` returns for values that are not zero. -/
theorem bitwiseOp_exact {op : BitwiseOp} {opts : BitwiseOptions} (hopt : opts.Valid op) {a b : Value}
    (ha : a.digits ≠ []) (hb : b.digits ≠ []) :
    ∃ z : Int, (∀ i, z.testBit i = (opts.increaseResult ^^
        op.bit ((operand a.digits opts.decreaseLeft).testBit i) ((operand b.digits opts.decreaseRight).testBit i))) ∧
      Exact z (ecmaBigintBitwiseOp op opts a.toBlock b.toBlock) := by
  obtain ⟨m, ds, hbits, hdn, hdv, hde⟩ := ecmaBigUintBitwiseOp_eq a.trimmed b.trimmed ha hb hopt a.fits b.fits
  refine ⟨if opts.increaseResult then Int.negSucc m else m, ?_, ?_⟩
  · intro i
    rw [← hbits]
    cases opts.increaseResult <;> simp [Int.testBit]
  · rw [ecmaBigintBitwiseOp, hde]
    refine exact_of_boxed_signed hdn ?_
    rw [hdv, increment]
    cases opts.increaseResult <;> rfl

/-- The outcome `r` has the bits of `a` and `b` combined by `f`. -/
def BitsCombined (f : Bool → Bool → Bool) (a b : Value) (r : Res Block) : Prop :=
  ∃ z : Int, (∀ i, z.testBit i = f (a.toInt.testBit i) (b.toInt.testBit i)) ∧ Exact z r

theorem bitsCombined_of_op {f : Bool → Bool → Bool} {a b c d : Value} {op : BitwiseOp} {opts : BitwiseOptions}
    (hopt : opts.Valid op) (hc : c.digits ≠ []) (hd : d.digits ≠ [])
    (hbits : ∀ i, (opts.increaseResult ^^
      op.bit ((operand c.digits opts.decreaseLeft).testBit i) ((operand d.digits opts.decreaseRight).testBit i)) =
        f (a.toInt.testBit i) (b.toInt.testBit i)) :
    BitsCombined f a b (ecmaBigintBitwiseOp op opts c.toBlock d.toBlock) := by
  obtain ⟨z, hz, he⟩ := bitwiseOp_exact hopt hc hd
  exact ⟨z, fun i => by rw [hz, hbits], he⟩

theorem testBit_zero (i : Nat) : (0 : Int).testBit i = false := by
  show Nat.testBit 0 i = false
  exact Nat.zero_testBit i

/-- A zero operand, for the operations that then return the other one. -/
theorem bitsCombined_zero_left {f : Bool → Bool → Bool} (hf : ∀ x, f false x = x) {a b : Value}
    (ha : a.toBlock = Block.zero) : BitsCombined f a b (.ok b.toBlock) := by
  refine ⟨b.toInt, fun i => ?_, exact_of_value b rfl rfl⟩
  rw [toInt_of_eq_zero ha, testBit_zero, hf]

theorem bitsCombined_zero_right {f : Bool → Bool → Bool} (hf : ∀ x, f x false = x) {a b : Value}
    (hb : b.toBlock = Block.zero) : BitsCombined f a b (.ok a.toBlock) := by
  refine ⟨a.toInt, fun i => ?_, exact_of_value a rfl rfl⟩
  rw [toInt_of_eq_zero hb, testBit_zero, hf]

section Signed

variable (a b : Value)

theorem and_bits : BitsCombined (fun x y => x && y) a b (ecmaBigintAnd a.toBlock b.toBlock) := by
  unfold ecmaBigintAnd
  split
  · rename_i h
    refine ⟨0, fun i => ?_, exact_zero⟩
    rw [testBit_zero]
    rcases h with h | h
    · rw [toInt_of_eq_zero h, testBit_zero]; rfl
    · rw [toInt_of_eq_zero h, testBit_zero]; exact (Bool.and_false _).symm
  · rename_i h
    have ha := ne_nil_of_ne_zero (fun h' => h (Or.inl h'))
    have hb := ne_nil_of_ne_zero (fun h' => h (Or.inr h'))
    have hA := testBit_toInt ha
    have hB := testBit_toInt hb
    cases hsa : a.sign <;> cases hsb : b.sign <;> simp only [hsa, hsb] at hA hB ⊢ <;>
      simp only [Bool.not_false, Bool.not_true, if_true, if_false, Bool.false_eq_true]
    · exact bitsCombined_of_op (Or.inr ⟨by decide, rfl⟩) ha hb (fun i => by simp [hA, hB, BitwiseOp.bit])
    · exact bitsCombined_of_op (Or.inl rfl) ha hb (fun i => by simp [hA, hB, BitwiseOp.bit])
    · exact bitsCombined_of_op (Or.inl rfl) hb ha (fun i => by simp [hA, hB, BitwiseOp.bit, Bool.and_comm])
    · exact bitsCombined_of_op (Or.inl rfl) ha hb (fun i => by simp [hA, hB, BitwiseOp.bit])

theorem or_bits : BitsCombined (fun x y => x || y) a b (ecmaBigintOr a.toBlock b.toBlock) := by
  unfold ecmaBigintOr
  split
  · exact bitsCombined_zero_left (fun _ => rfl) ‹_›
  · rename_i h1
    split
    · exact bitsCombined_zero_right Bool.or_false ‹_›
    · rename_i h2
      have ha := ne_nil_of_ne_zero h1
      have hb := ne_nil_of_ne_zero h2
      have hA := testBit_toInt ha
      have hB := testBit_toInt hb
      cases hsa : a.sign <;> cases hsb : b.sign <;> simp only [hsa, hsb] at hA hB ⊢ <;>
        simp only [Bool.not_false, Bool.not_true, if_true, if_false, Bool.false_eq_true]
      · exact bitsCombined_of_op (Or.inr ⟨by decide, rfl⟩) ha hb (fun i => by simp [hA, hB, BitwiseOp.bit])
      · exact bitsCombined_of_op (Or.inl rfl) hb ha (fun i => by simp [hA, hB, BitwiseOp.bit, Bool.or_comm])
      · exact bitsCombined_of_op (Or.inl rfl) ha hb (fun i => by simp [hA, hB, BitwiseOp.bit])
      · exact bitsCombined_of_op (Or.inl rfl) ha hb (fun i => by simp [hA, hB, BitwiseOp.bit])

theorem xor_bits : BitsCombined (fun x y => x ^^ y) a b (ecmaBigintXor a.toBlock b.toBlock) := by
  unfold ecmaBigintXor
  split
  · exact bitsCombined_zero_left Bool.false_xor ‹_›
  · rename_i h1
    split
    · exact bitsCombined_zero_right Bool.xor_false ‹_›
    · rename_i h2
      have ha := ne_nil_of_ne_zero h1
      have hb := ne_nil_of_ne_zero h2
      have hA := testBit_toInt ha
      have hB := testBit_toInt hb
      cases hsa : a.sign <;> cases hsb : b.sign <;> simp only [hsa, hsb] at hA hB ⊢ <;>
        simp only [Bool.not_false, Bool.not_true, if_true, if_false, Bool.false_eq_true]
      · exact bitsCombined_of_op (Or.inr ⟨by decide, rfl⟩) ha hb (fun i => by simp [hA, hB, BitwiseOp.bit])
      · exact bitsCombined_of_op (Or.inl rfl) ha hb (fun i => by simp [hA, hB, BitwiseOp.bit])
      · exact bitsCombined_of_op (Or.inl rfl) ha hb (fun i => by simp [hA, hB, BitwiseOp.bit])
      · exact bitsCombined_of_op (Or.inl rfl) ha hb (fun i => by simp [hA, hB, BitwiseOp.bit])

/-- The bitwise operators return the normalised value whose two's complement has the combined bits;
the only error is the range error for a result that does not fit. -/
theorem bigint_bitwise_testBit :
    BitsCombined (fun x y => x && y) a b (ecmaBigintAnd a.toBlock b.toBlock) ∧
    BitsCombined (fun x y => x || y) a b (ecmaBigintOr a.toBlock b.toBlock) ∧
    BitsCombined (fun x y => x ^^ y) a b (ecmaBigintXor a.toBlock b.toBlock) :=
  ⟨and_bits a b, or_bits a b, xor_bits a b⟩

end Signed

end BigInt
end JJS
