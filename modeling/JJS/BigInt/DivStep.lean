import JJS.BigInt.DivDigit
import JJS.Lib.LongDivision

/-!
# JJS.BigInt.DivStep

One step of Algorithm D in `ecma_big_uint_div_mod`, on its window of `n + 1` dividend digits: it
estimates a quotient digit (D3), multiplies and subtracts (D4) and may add the divisor back once
(D6).

D3 corrects its estimate against `HIGH (result_mod) | divisor_low`, where Algorithm D has the third
digit of the window in the place of `divisor_low`. So the digit is the least of `2 ^ 32 - 1` and
`LongDivision.guess` (`divEstimate_val`). Result: a step computes the quotient and the remainder of
the window if the guess is not below the quotient, and a digit that is too small otherwise
(`divStep_exact`, `divStep_small`).

`JJS_ASSERT` is compiled out by `JJS_NDEBUG`. The flag `ndebug` says so for the assertion of D3,
which a valid division can violate; the others never fail.
-/

namespace JJS
namespace BigInt

open Radix LongDivision

/-! ## D3: the estimate -/

/-- The correction loop. The product `low_digits` is positive whenever the body runs, so
`result_div` bounds the number of iterations. -/
def divCorrect (divisorHigh divisorLow : Digit) : Nat → Digit → Digit → TwoDigits → Digit
  | 0, resultDiv, _, _ => resultDiv
  | fuel + 1, resultDiv, resultMod, lowDigits =>
    if (divisorLow.setWidth 64 ||| (resultMod.setWidth 64 <<< 32)) < lowDigits then
      let resultDiv := resultDiv - 1#32
      let resultMod := resultMod + divisorHigh
      if resultMod < divisorHigh then resultDiv
      else divCorrect divisorHigh divisorLow fuel resultDiv resultMod (lowDigits - divisorLow.setWidth 64)
    else resultDiv

def divCorrected (divisorHigh divisorLow resultDiv resultMod : Digit) : Digit :=
  divCorrect divisorHigh divisorLow resultDiv.toNat resultDiv resultMod
    (resultDiv.setWidth 64 * divisorLow.setWidth 64)

/-- D3, for the two leading digits of the window. -/
def divEstimate (ndebug : Bool) (dividendHigh dividendNext divisorHigh divisorLow : Digit) : Res Digit :=
  if dividendHigh < divisorHigh then
    let dividend : TwoDigits := dividendNext.setWidth 64 ||| (dividendHigh.setWidth 64 <<< 32)
    .ok (divCorrected divisorHigh divisorLow ((dividend / divisorHigh.setWidth 64).setWidth 32)
      ((dividend % divisorHigh.setWidth 64).setWidth 32))
  else do
    jjsAssert (ndebug ∨ (dividendHigh = divisorHigh ∧ dividendNext < divisorHigh))
    let resultMod := dividendNext + divisorHigh
    if resultMod < divisorHigh then .ok maxDigit
    else .ok (divCorrected divisorHigh divisorLow maxDigit resultMod)

/-- The loop stops at the estimate, or where it started. -/
theorem divCorrect_val {vh vl : Digit} (hv : 0 < vh.toNat) (t fuel : Nat) {q r : Digit} {low : TwoDigits}
    (hf : q.toNat ≤ fuel) (ht : q.toNat * vh.toNat + r.toNat = t) (hlow : low.toNat = q.toNat * vl.toNat) :
    (divCorrect vh vl fuel q r low).toNat = min q.toNat (guess (2 ^ 32) t vh.toNat vl.toNat) := by
  induction fuel generalizing q r low with
  | zero =>
    have hq : q.toNat = 0 := by omega
    simp [divCorrect, hq]
  | succ fuel ih =>
    have hguard : (vl.setWidth 64 ||| (r.setWidth 64 <<< 32) : TwoDigits) < low ↔
        guess (2 ^ 32) t vh.toNat vl.toNat < q.toNat := by
      rw [BitVec.lt_def, toNat_two_digits, hlow, guess_lt_iff (by decide) hv ht]
    unfold divCorrect
    by_cases hg : guess (2 ^ 32) t vh.toNat vl.toNat < q.toNat
    · rw [if_pos (hguard.mpr hg)]
      have hsub : (q - 1#32).toNat = q.toNat - 1 := by bv_omega
      have hq1 : (q.toNat - 1) * vh.toNat + (vh.toNat + r.toNat) = t := by
        rw [← ht, Nat.sub_mul, Nat.one_mul]
        have := Nat.le_mul_of_pos_left vh.toNat (by omega : 0 < q.toNat)
        omega
      simp only []
      split
      · -- the rest has two digits: the estimate is the digit before
        rename_i hov
        have hrest : 2 ^ 32 ≤ vh.toNat + r.toNat := by bv_omega
        have := le_guess_of_rest (by decide) hv vl.isLt (by have := q.isLt; omega) hq1 hrest
        rw [hsub]
        omega
      · rename_i hov
        have hadd : (r + vh).toNat = r.toNat + vh.toNat := by bv_omega
        have hlow' : (low - vl.setWidth 64).toNat = (q - 1#32).toNat * vl.toNat := by
          have hvl : (vl.setWidth 64).toNat = vl.toNat := by
            have := vl.isLt
            rw [BitVec.toNat_setWidth, Nat.mod_eq_of_lt (by omega)]
          have hle := Nat.le_mul_of_pos_left vl.toNat (by omega : 0 < q.toNat)
          rw [BitVec.toNat_sub_of_le (by rw [BitVec.le_def, hvl, hlow]; exact hle), hvl, hlow, hsub,
            Nat.sub_mul, Nat.one_mul]
        rw [ih (by omega) (by rw [hsub, hadd]; omega) hlow', hsub]
        omega
    · rw [if_neg (fun h => hg (hguard.mp h))]
      omega

theorem divCorrected_val {vh vl q r : Digit} (hv : 0 < vh.toNat) :
    (divCorrected vh vl q r).toNat =
      min q.toNat (guess (2 ^ 32) (q.toNat * vh.toNat + r.toNat) vh.toNat vl.toNat) :=
  divCorrect_val hv _ _ (Nat.le_refl _) rfl (toNat_digit_mul q vl)

/-- D3 computes the capped estimate, unless its assertion fails. -/
theorem divEstimate_val {ndebug : Bool} {u₀ u₁ vh : Digit} (vl : Digit) (hv : 0 < vh.toNat) (hu : u₀.toNat ≤ vh.toNat) :
    (ndebug ∨ (u₀ = vh → u₁ < vh)) →
    ∃ q, divEstimate ndebug u₀ u₁ vh vl = .ok q ∧
      q.toNat = min (2 ^ 32 - 1) (guess (2 ^ 32) (u₀.toNat * 2 ^ 32 + u₁.toNat) vh.toNat vl.toNat) := by
  intro hdbg
  have h1 := u₁.isLt
  have hvl := vl.isLt
  have hvh := vh.isLt
  unfold divEstimate
  split
  · rename_i hlt
    have hlt' : u₀.toNat < vh.toNat := hlt
    have htwo := toNat_two_digits u₁ u₀
    have hfit : (u₁.setWidth 64 ||| (u₀.setWidth 64 <<< 32) : TwoDigits).toNat < 2 ^ 32 * vh.toNat := by omega
    obtain ⟨hq, hm⟩ := toNat_two_digits_div hfit
    refine ⟨_, rfl, ?_⟩
    rw [divCorrected_val hv, hq, hm, htwo, Nat.mul_comm _ vh.toNat, Nat.div_add_mod]
    have hle : guess (2 ^ 32) (u₀.toNat * 2 ^ 32 + u₁.toNat) vh.toNat vl.toNat ≤
        (u₀.toNat * 2 ^ 32 + u₁.toNat) / vh.toNat := guess_le_div (by decide) hv
    have hlt32 : (u₀.toNat * 2 ^ 32 + u₁.toNat) / vh.toNat < 2 ^ 32 := by
      rw [Nat.div_lt_iff_lt_mul hv, ← htwo]
      exact hfit
    rw [Nat.min_eq_right hle, Nat.min_eq_right (Nat.le_sub_one_of_lt (Nat.lt_of_le_of_lt hle hlt32))]
  · rename_i hge
    have heq : u₀ = vh := by
      apply BitVec.eq_of_toNat_eq
      rw [BitVec.lt_def] at hge
      omega
    have hassert : ndebug ∨ (u₀ = vh ∧ u₁ < vh) := by
      rcases hdbg with h | h
      · exact Or.inl h
      · exact Or.inr ⟨heq, h heq⟩
    rw [jjsAssert_ok hassert, ok_bind, heq]
    have hsum : (2 ^ 32 - 1) * vh.toNat + (vh.toNat + u₁.toNat) = vh.toNat * 2 ^ 32 + u₁.toNat := by omega
    simp only []
    split
    · rename_i hov
      have hrest : 2 ^ 32 ≤ vh.toNat + u₁.toNat := by bv_omega
      have := le_guess_of_rest (by decide) hv hvl (by omega) hsum hrest
      exact ⟨maxDigit, rfl, by rw [toNat_maxDigit]; omega⟩
    · rename_i hov
      have hadd : (u₁ + vh).toNat = vh.toNat + u₁.toNat := by bv_omega
      refine ⟨_, rfl, ?_⟩
      rw [divCorrected_val hv, toNat_maxDigit, hadd, hsum]

/-! ## D4: multiply and subtract -/

def mulSubStep (source resultDiv value carry : Digit) : Digit × Digit :=
  let multiplyResult : TwoDigits := source.setWidth 64 * resultDiv.setWidth 64
  let newCarry : Digit := (multiplyResult >>> 32).setWidth 32
  let low : Digit := multiplyResult.setWidth 32
  let newCarry := if value < low then newCarry + 1#32 else newCarry
  let value := value - low
  let newCarry := if value < carry then newCarry + 1#32 else newCarry
  (value - carry, newCarry)

/-- The loop over the divisor digits: the digits written and the last carry. -/
def mulSubDigits (resultDiv : Digit) : List Digit → List Digit → Digit → List Digit × Digit
  | source :: ss, value :: vs, carry =>
    let s := mulSubStep source resultDiv value carry
    let t := mulSubDigits resultDiv ss vs s.2
    (s.1 :: t.1, t.2)
  | _, _, carry => ([], carry)

theorem mulSubStep_val (source q value carry : Digit) :
    (mulSubStep source q value carry).1.toNat + source.toNat * q.toNat + carry.toNat =
      value.toNat + 2 ^ 32 * (mulSubStep source q value carry).2.toNat := by
  have hs := source.isLt
  have hq := q.isLt
  have hv := value.isLt
  have hc := carry.isLt
  have hprod : source.toNat * q.toNat ≤ (2 ^ 32 - 1) * (2 ^ 32 - 1) := Nat.mul_le_mul (by omega) (by omega)
  have hm := toNat_digit_mul source q
  unfold mulSubStep
  generalize (source.setWidth 64 * q.setWidth 64 : TwoDigits) = m at hm ⊢
  have hlow : (m.setWidth 32).toNat = m.toNat % 2 ^ 32 := BitVec.toNat_setWidth 32 m
  have hhigh : ((m >>> 32).setWidth 32).toNat = m.toNat / 2 ^ 32 := by
    rw [BitVec.toNat_setWidth, BitVec.toNat_ushiftRight, Nat.shiftRight_eq_div_pow]
    omega
  simp only []
  generalize m.setWidth 32 = low at hlow ⊢
  generalize (m >>> 32).setWidth 32 = high at hhigh ⊢
  rw [← hm] at hprod ⊢
  have hsplit : m.toNat = low.toNat + 2 ^ 32 * high.toNat := by omega
  have hl := low.isLt
  have hh := high.isLt
  -- the difference of two digits, and whether it borrowed
  have hsub : ∀ a b : Digit, (a - b).toNat + b.toNat = a.toNat + 2 ^ 32 * (if a < b then 1 else 0) := by
    intro a b
    split <;> bv_omega
  have h1 := hsub value low
  have h2 := hsub (value - low) carry
  have hinc : ∀ c : Digit, c.toNat < 2 ^ 32 - 1 → (c + 1#32).toNat = c.toNat + 1 := by
    intro c hc
    bv_omega
  have hd1 := (value - low).isLt
  by_cases b1 : value < low
  · rw [if_pos b1] at h1 ⊢
    have e1 := hinc high (by omega)
    by_cases b2 : value - low < carry
    · rw [if_pos b2] at h2 ⊢
      have e2 := hinc (high + 1#32) (by
        rw [BitVec.lt_def] at b2
        omega)
      omega
    · rw [if_neg b2] at h2 ⊢
      omega
  · rw [if_neg b1] at h1 ⊢
    by_cases b2 : value - low < carry
    · rw [if_pos b2] at h2 ⊢
      have e2 := hinc high (by omega)
      omega
    · rw [if_neg b2] at h2 ⊢
      omega

theorem mulSubDigits_val (q : Digit) (ss vs : List Digit) (hl : ss.length ≤ vs.length) (carry : Digit) :
    (mulSubDigits q ss vs carry).1.length = ss.length ∧
      val (mulSubDigits q ss vs carry).1 + val ss * q.toNat + carry.toNat =
        val (vs.take ss.length) + (2 ^ 32) ^ ss.length * (mulSubDigits q ss vs carry).2.toNat := by
  induction ss generalizing vs carry with
  | nil => exact ⟨by cases vs <;> rfl, by cases vs <;> simp [mulSubDigits]⟩
  | cons x ss ih =>
    cases vs with
    | nil => simp at hl
    | cons y vs =>
      have hstep := mulSubStep_val x q y carry
      obtain ⟨hlen, hv⟩ := ih vs (by simpa using hl) (mulSubStep x q y carry).2
      refine ⟨by simp [mulSubDigits, hlen], ?_⟩
      simp only [mulSubDigits, val_cons, List.length_cons, List.take_succ_cons, weight_succ, Nat.mul_assoc,
        Nat.add_mul]
      generalize (2 ^ 32) ^ ss.length * (mulSubDigits q ss vs (mulSubStep x q y carry).2).2.toNat = p at hv ⊢
      generalize val ss * q.toNat = z at hv ⊢
      generalize x.toNat * q.toNat = w at hstep ⊢
      omega

/-! ## The step -/

/-- D4 and D6, on the digits from `dividend_p` to `dividend_end_p`: the digits below
`dividend_end_p`, and the quotient digit that is stored there. -/
def divSubtract (divisor window : List Digit) (resultDiv : Digit) : Res (List Digit × Digit) :=
  let s := mulSubDigits resultDiv divisor window 0#32
  if window.getD divisor.length 0#32 < s.2 then do
    let t ← addDigits s.1 divisor 0#32
    .ok (t.1, resultDiv - 1#32)
  else .ok (s.1, resultDiv)

/-- One iteration of the main loop. -/
def divStep (ndebug : Bool) (divisor window : List Digit) : Res (List Digit × Digit) := do
  let n := divisor.length
  let resultDiv ← divEstimate ndebug (window.getD n 0#32) (window.getD (n - 1) 0#32)
    (divisor.getD (n - 1) 0#32) (divisor.getD (n - 2) 0#32)
  divSubtract divisor window resultDiv

/-- What D4 and D6 leave for a digit that is at most one too large. -/
theorem divSubtract_ok {divisor low : List Digit} {top q : Digit} (hlow : low.length = divisor.length)
    (hover : q.toNat * val divisor ≤ val (low ++ [top]) + val divisor) :
    ∃ r d, divSubtract divisor (low ++ [top]) q = .ok (r, d) ∧ r.length = divisor.length ∧
      (q.toNat * val divisor ≤ val (low ++ [top]) → d = q ∧
        (val (low ++ [top]) < (q.toNat + 1) * val divisor → val r + q.toNat * val divisor = val (low ++ [top]))) ∧
      (val (low ++ [top]) < q.toNat * val divisor → d.toNat + 1 = q.toNat ∧
        val r + d.toNat * val divisor = val (low ++ [top])) := by
  have htop : (low ++ [top]).getD divisor.length 0#32 = top := by simp [← hlow]
  rw [divSubtract, htop]
  obtain ⟨hlen, hv⟩ := mulSubDigits_val q divisor (low ++ [top]) (by simp; omega) 0#32
  rw [BitVec.toNat_zero, Nat.add_zero, ← hlow, List.take_left, Nat.mul_comm (val divisor)] at hv
  rw [val_concat] at hover ⊢
  generalize mulSubDigits q divisor (low ++ [top]) 0#32 = s at hlen hv ⊢
  have hs := val_lt s.1
  rw [hlen, ← hlow] at hs
  have hdv := val_lt divisor
  rw [← hlow] at hdv
  have hpos : 0 < (2 ^ 32) ^ low.length := Nat.pow_pos (by decide)
  have hmono : ∀ {x y : Nat}, x < y → (2 ^ 32) ^ low.length * x + (2 ^ 32) ^ low.length ≤ (2 ^ 32) ^ low.length * y := by
    intro x y hxy
    have := Nat.mul_le_mul_left ((2 ^ 32) ^ low.length) (show x + 1 ≤ y from hxy)
    rwa [Nat.mul_add, Nat.mul_one] at this
  have hneg : top < s.2 ↔ val low + (2 ^ 32) ^ low.length * top.toNat < q.toNat * val divisor := by
    rw [BitVec.lt_def]
    constructor
    · intro h
      have := hmono h
      omega
    · intro h
      by_contra hle
      have := Nat.mul_le_mul_left ((2 ^ 32) ^ low.length) (Nat.le_of_not_lt hle)
      omega
  by_cases hn : top < s.2
  · have hlt := hneg.mp hn
    obtain ⟨ds, c, he, hc, hdl, hadd⟩ := addDigits_ok s.1 divisor (by omega) (show (0#32).toNat ≤ 1 by decide)
    have hnil : s.1.drop divisor.length = [] := List.drop_eq_nil_of_le (by omega)
    rw [hnil, val_nil, Nat.zero_add, BitVec.toNat_zero, Nat.add_zero, ← hlow] at hadd
    have hds := val_lt ds
    rw [hdl, ← hlow] at hds
    have hq1 : 0 < q.toNat := by
      rcases Nat.eq_zero_or_pos q.toNat with h0 | h0
      · rw [h0] at hlt; omega
      · exact h0
    have hsub : (q - 1#32).toNat = q.toNat - 1 := by bv_omega
    refine ⟨ds, q - 1#32, by simp only [if_pos hn, he, ok_bind], hdl, fun h => absurd hlt (by omega), ?_⟩
    intro _
    refine ⟨by omega, ?_⟩
    have hqv : (q.toNat - 1) * val divisor + val divisor = q.toNat * val divisor := by
      rw [Nat.sub_mul, Nat.one_mul, Nat.sub_add_cancel (Nat.le_mul_of_pos_left _ hq1)]
    rw [hsub]
    -- the carry of the add-back cancels the borrow
    have hcancel : c.toNat + top.toNat = s.2.toNat := by
      by_contra hne
      rcases Nat.lt_or_gt_of_ne hne with h | h
      · have := hmono h
        rw [Nat.mul_add] at this
        omega
      · have := hmono h
        rw [Nat.mul_add] at this
        omega
    rw [← hcancel, Nat.mul_add] at hv
    omega
  · have hge : q.toNat * val divisor ≤ val low + (2 ^ 32) ^ low.length * top.toNat := by
      by_contra h
      exact hn (hneg.mpr (by omega))
    refine ⟨s.1, q, by simp only [if_neg hn], hlen, fun _ => ⟨rfl, ?_⟩, fun h => absurd hge (by omega)⟩
    intro hlt
    have hz : top.toNat = s.2.toNat := by
      by_contra hne
      rw [BitVec.lt_def] at hn
      have := hmono (show s.2.toNat < top.toNat by omega)
      rw [Nat.add_mul, Nat.one_mul] at hlt
      omega
    rw [hz] at hlt hge ⊢
    omega

/-- A step never changes the number of digits. -/
theorem divStep_length {ndebug : Bool} {divisor window : List Digit} {r : List Digit} {d : Digit}
    (hl : divisor.length ≤ window.length) (h : divStep ndebug divisor window = .ok (r, d)) :
    r.length = divisor.length := by
  unfold divStep at h
  cases hq : divEstimate ndebug (window.getD divisor.length 0#32) (window.getD (divisor.length - 1) 0#32)
      (divisor.getD (divisor.length - 1) 0#32) (divisor.getD (divisor.length - 2) 0#32) with
  | error e =>
    simp only [hq, error_bind] at h
    cases h
  | ok q =>
    simp only [hq, ok_bind, divSubtract] at h
    obtain ⟨hlen, -⟩ := mulSubDigits_val q divisor window hl 0#32
    obtain ⟨ds, c, he, -, hdl, -⟩ := addDigits_ok (mulSubDigits q divisor window 0#32).1 divisor (by omega)
      (show (0#32).toNat ≤ 1 by decide)
    rw [he] at h
    split at h
    · cases h
      exact hdl
    · cases h
      exact hlen

section Step

variable {ndebug : Bool} {vs ws : List Digit} {vl vh u₁ u₀ : Digit}

/-- The step in terms of the leading digits. -/
theorem divStep_eq (hl : ws.length = vs.length + 1) :
    divStep ndebug (vs ++ [vl, vh]) (ws ++ [u₁, u₀]) = (do
      let resultDiv ← divEstimate ndebug u₀ u₁ vh vl
      divSubtract (vs ++ [vl, vh]) (ws ++ [u₁] ++ [u₀]) resultDiv) := by
  have hn : (vs ++ [vl, vh]).length = ws.length + 1 := by simp [hl]
  have h1 : (ws ++ [u₁, u₀]).getD (vs ++ [vl, vh]).length 0#32 = u₀ := by simp [hn, List.getD]
  have h2 : (ws ++ [u₁, u₀]).getD ((vs ++ [vl, vh]).length - 1) 0#32 = u₁ := by simp [hn, List.getD]
  have h3 : (vs ++ [vl, vh]).getD ((vs ++ [vl, vh]).length - 1) 0#32 = vh := by simp [List.getD]
  have h4 : (vs ++ [vl, vh]).getD ((vs ++ [vl, vh]).length - 2) 0#32 = vl := by simp [List.getD]
  simp only [divStep, h1, h2, h3, h4, List.append_assoc, List.singleton_append]

/-- The assertion of D3 stops the step when the two leading digits of the window are too large. -/
theorem divStep_assertion (hl : ws.length = vs.length + 1) (hu : ¬ u₀ < vh) (hdbg : ndebug = false)
    (h : ¬ u₁ < vh) : divStep ndebug (vs ++ [vl, vh]) (ws ++ [u₁, u₀]) = .error .assertion := by
  have hassert : jjsAssert (ndebug ∨ (u₀ = vh ∧ u₁ < vh)) = .error .assertion := by
    rw [jjsAssert, if_neg]
    intro hc
    rcases hc with hc | hc
    · rw [hdbg] at hc; cases hc
    · exact h hc.2
  rw [divStep_eq hl, divEstimate, if_neg hu, hassert]
  rfl

theorem val_two_top (xs : List Digit) (a b : Digit) :
    val (xs ++ [a, b]) = val xs + (2 ^ 32) ^ xs.length * (b.toNat * 2 ^ 32 + a.toNat) := by
  rw [val_append, val_cons, val_cons, val_nil]
  ring

/-- The leading digits in terms of the numbers, with `W` the weight of the divisor's second digit. -/
theorem leading_bounds (vl vh u₁ u₀ : Digit) (hl : ws.length = vs.length + 1) :
    val (vs ++ [vl, vh]) < (vh.toNat * 2 ^ 32 + vl.toNat + 1) * (2 ^ 32) ^ vs.length ∧
      (u₀.toNat * 2 ^ 32 + u₁.toNat) * 2 ^ 32 * (2 ^ 32) ^ vs.length ≤ val (ws ++ [u₁, u₀]) := by
  rw [val_two_top, val_two_top, hl, weight_succ]
  have := val_lt vs
  constructor
  · rw [Nat.add_mul, Nat.one_mul, Nat.mul_comm _ ((2 ^ 32) ^ vs.length)]
    omega
  · calc _ = 2 ^ 32 * (2 ^ 32) ^ vs.length * (u₀.toNat * 2 ^ 32 + u₁.toNat) := by ring
      _ ≤ _ := Nat.le_add_left _ _

theorem high_le_of_window (hl : ws.length = vs.length + 1)
    (hU : val (ws ++ [u₁, u₀]) < 2 ^ 32 * val (vs ++ [vl, vh])) : u₀.toNat ≤ vh.toNat := by
  obtain ⟨hv, hu⟩ := leading_bounds vl vh u₁ u₀ hl
  have hvl := vl.isLt
  by_contra hgt
  have h1 : (vh.toNat + 1) * 2 ^ 32 ≤ u₀.toNat * 2 ^ 32 + u₁.toNat := by omega
  have h2 : vh.toNat * 2 ^ 32 + vl.toNat + 1 ≤ (vh.toNat + 1) * 2 ^ 32 := by omega
  have h3 := Nat.mul_le_mul_right (2 ^ 32 * (2 ^ 32) ^ vs.length) (Nat.le_trans h2 h1)
  have h4 : 2 ^ 32 * val (vs ++ [vl, vh]) ≤
      2 ^ 32 * ((vh.toNat * 2 ^ 32 + vl.toNat + 1) * (2 ^ 32) ^ vs.length) :=
    Nat.mul_le_mul_left _ (Nat.le_of_lt hv)
  rw [Nat.mul_left_comm] at h4
  rw [← Nat.mul_assoc (u₀.toNat * 2 ^ 32 + u₁.toNat)] at h3
  omega

variable (hl : ws.length = vs.length + 1) (hvh : 0 < vh.toNat)
  (hU : val (ws ++ [u₁, u₀]) < 2 ^ 32 * val (vs ++ [vl, vh]))
  (hdbg : ndebug ∨ (u₀ = vh → u₁ < vh))

include hl hvh hU hdbg

/-- The step for the estimated digit, whatever it is. -/
theorem divStep_estimate : ∃ (q : Digit) (r : List Digit) (d : Digit),
    divStep ndebug (vs ++ [vl, vh]) (ws ++ [u₁, u₀]) = .ok (r, d) ∧ r.length = vs.length + 2 ∧
    q.toNat = min (2 ^ 32 - 1) (guess (2 ^ 32) (u₀.toNat * 2 ^ 32 + u₁.toNat) vh.toNat vl.toNat) ∧
    (q.toNat * val (vs ++ [vl, vh]) ≤ val (ws ++ [u₁, u₀]) → d = q ∧
      (val (ws ++ [u₁, u₀]) < (q.toNat + 1) * val (vs ++ [vl, vh]) →
        val r + q.toNat * val (vs ++ [vl, vh]) = val (ws ++ [u₁, u₀]))) ∧
    (val (ws ++ [u₁, u₀]) < q.toNat * val (vs ++ [vl, vh]) → d.toNat + 1 = q.toNat ∧
      val r + d.toNat * val (vs ++ [vl, vh]) = val (ws ++ [u₁, u₀])) ∧
    q.toNat * val (vs ++ [vl, vh]) ≤ val (ws ++ [u₁, u₀]) + val (vs ++ [vl, vh]) := by
  obtain ⟨hv, hu⟩ := leading_bounds vl vh u₁ u₀ hl
  obtain ⟨q, he, hq⟩ := divEstimate_val vl hvh (high_le_of_window hl hU) hdbg
  have hover := guess_overshoot hvh (hq ▸ Nat.min_le_right _ _) (Nat.le_of_lt q.isLt) hv hu
  rw [show ws ++ [u₁, u₀] = ws ++ [u₁] ++ [u₀] by simp] at hover ⊢
  obtain ⟨r, d, hr, hlen, h1, h2⟩ := divSubtract_ok
    (show (ws ++ [u₁]).length = (vs ++ [vl, vh]).length by simp [hl]) hover
  refine ⟨q, r, d, ?_, by simpa using hlen, hq, h1, h2, hover⟩
  rw [show ws ++ [u₁] ++ [u₀] = ws ++ [u₁, u₀] by simp, divStep_eq hl, he, ok_bind, hr]

/-- With a large enough estimate the step divides its window. -/
theorem divStep_exact (hD : val (ws ++ [u₁, u₀]) / val (vs ++ [vl, vh]) ≤
      guess (2 ^ 32) (u₀.toNat * 2 ^ 32 + u₁.toNat) vh.toNat vl.toNat) :
    ∃ r d, divStep ndebug (vs ++ [vl, vh]) (ws ++ [u₁, u₀]) = .ok (r, d) ∧ r.length = vs.length + 2 ∧
      val r = val (ws ++ [u₁, u₀]) % val (vs ++ [vl, vh]) ∧
      d.toNat = val (ws ++ [u₁, u₀]) / val (vs ++ [vl, vh]) := by
  obtain ⟨q, r, d, he, hlen, hq, h1, h2, hover⟩ := divStep_estimate hl hvh hU hdbg
  generalize val (ws ++ [u₁, u₀]) = U at *
  generalize val (vs ++ [vl, vh]) = v at *
  have hv : 0 < v := by
    rcases Nat.eq_zero_or_pos v with h0 | h0
    · rw [h0] at hU; omega
    · exact h0
  have hD32 : U / v < 2 ^ 32 := (Nat.div_lt_iff_lt_mul hv).mpr hU
  have hge : U / v ≤ q.toNat := hq ▸ Nat.le_min.mpr ⟨Nat.le_sub_one_of_lt hD32, hD⟩
  have hdm := Nat.div_add_mod U v
  have hm := Nat.mod_lt U hv
  refine ⟨r, d, he, hlen, ?_⟩
  by_cases hle : q.toNat * v ≤ U
  · obtain ⟨rfl, hr⟩ := h1 hle
    have heq : d.toNat = U / v := Nat.le_antisymm ((Nat.le_div_iff_mul_le hv).mpr hle) hge
    have hlt : U < (d.toNat + 1) * v := by
      rw [heq, Nat.add_mul, Nat.one_mul, Nat.mul_comm]
      omega
    have := hr hlt
    rw [heq, Nat.mul_comm] at this
    exact ⟨by omega, heq⟩
  · obtain ⟨hd, hr⟩ := h2 (Nat.lt_of_not_le hle)
    have heq : d.toNat = U / v := by
      apply Nat.le_antisymm
      · rw [Nat.le_div_iff_mul_le hv]
        omega
      · by_contra hlt
        have hmul := Nat.mul_le_mul_right v (show q.toNat ≤ U / v by omega)
        rw [Nat.mul_comm (U / v)] at hmul
        omega
    rw [heq, Nat.mul_comm] at hr
    exact ⟨by omega, heq⟩

/-- With a smaller estimate the digit is too small. -/
theorem divStep_small (hD : guess (2 ^ 32) (u₀.toNat * 2 ^ 32 + u₁.toNat) vh.toNat vl.toNat <
      val (ws ++ [u₁, u₀]) / val (vs ++ [vl, vh])) :
    ∃ r d, divStep ndebug (vs ++ [vl, vh]) (ws ++ [u₁, u₀]) = .ok (r, d) ∧ r.length = vs.length + 2 ∧
      d.toNat < val (ws ++ [u₁, u₀]) / val (vs ++ [vl, vh]) := by
  obtain ⟨q, r, d, he, hlen, hq, h1, h2, hover⟩ := divStep_estimate hl hvh hU hdbg
  have hlt : q.toNat < val (ws ++ [u₁, u₀]) / val (vs ++ [vl, vh]) :=
    Nat.lt_of_le_of_lt (hq ▸ Nat.min_le_right _ _) hD
  have hle : q.toNat * val (vs ++ [vl, vh]) ≤ val (ws ++ [u₁, u₀]) :=
    Nat.le_trans (Nat.mul_le_mul_right _ (Nat.le_of_lt hlt)) (Nat.div_mul_le_self _ _)
  obtain ⟨rfl, -⟩ := h1 hle
  exact ⟨r, d, he, hlen, hlt⟩

end Step

end BigInt
end JJS
