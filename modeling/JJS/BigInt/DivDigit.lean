import JJS.BigInt.Arith

/-!
# JJS.BigInt.DivDigit

The helpers of `ecma_big_uint_div_mod`: counting the leading zero bits, the shift that normalises
the operands (`ecma_big_uint_div_shift_left`), and the division by a single digit
(`ecma_big_uint_div_digit`).
-/

namespace JJS
namespace BigInt

open Radix

/-! ## Shifts -/

/-- An iteration keeps the leading bits of the digit and halves their number at least. -/
theorem clzStep_ok (k : Nat) {d x r : Digit} (hr : k < r.toNat) (hr' : r.toNat ≤ 32) (hx : 0 < x.toNat)
    (hlt : x.toNat < 2 ^ (2 * k)) (hd : d.toNat / 2 ^ (32 - r.toNat) = x.toNat) :
    ∃ x' r' : Digit, clzStep (x, r) k = (x', r') ∧ r.toNat - k ≤ r'.toNat ∧ r'.toNat ≤ r.toNat ∧ 0 < x'.toNat ∧ x'.toNat < 2 ^ k ∧
      d.toNat / 2 ^ (32 - r'.toNat) = x'.toNat := by
  have hs : (x >>> k).toNat = x.toNat / 2 ^ k := by
    rw [BitVec.toNat_ushiftRight, Nat.shiftRight_eq_div_pow]
  by_cases h : 0#32 < x >>> k
  · have hsub : (r - BitVec.ofNat 32 k).toNat = r.toNat - k := by bv_omega
    refine ⟨x >>> k, r - BitVec.ofNat 32 k, if_pos h, by omega, by omega, ?_, ?_, ?_⟩
    · simpa [BitVec.lt_def] using h
    · rw [hs, Nat.div_lt_iff_lt_mul (Nat.two_pow_pos k), ← pow_add, ← two_mul]
      exact hlt
    · rw [hsub, hs, ← hd, Nat.div_div_eq_div_mul, ← pow_add]
      congr 2
      omega
  · have hz : x.toNat / 2 ^ k = 0 := by
      rw [← hs]
      simpa [BitVec.lt_def] using h
    refine ⟨x, r, if_neg h, by omega, by omega, hx, ?_, hd⟩
    exact (Nat.div_eq_zero_iff_lt (Nat.two_pow_pos k)).mp hz

/-- The shift moves the highest set bit of a digit to its highest place. -/
theorem ecmaBigUintCountLeadingZero_spec {d : Digit} (h : d ≠ 0#32) :
    (ecmaBigUintCountLeadingZero d).toNat < 32 ∧
      2 ^ 31 ≤ d.toNat * 2 ^ (ecmaBigUintCountLeadingZero d).toNat ∧
      d.toNat * 2 ^ (ecmaBigUintCountLeadingZero d).toNat < 2 ^ 32 := by
  have hpos := toNat_pos h
  have hr0 : (32#32 : Digit).toNat = 32 := rfl
  have h0 : d.toNat / 2 ^ (32 - (32#32 : Digit).toNat) = d.toNat := by simp
  obtain ⟨x1, r1, e1, ha1, hb1, hp1, hl1, hd1⟩ := clzStep_ok 16 (by omega) (by omega) hpos d.isLt h0
  obtain ⟨x2, r2, e2, ha2, hb2, hp2, hl2, hd2⟩ := clzStep_ok 8 (by omega) (by omega) hp1 hl1 hd1
  obtain ⟨x3, r3, e3, ha3, hb3, hp3, hl3, hd3⟩ := clzStep_ok 4 (by omega) (by omega) hp2 hl2 hd2
  obtain ⟨x4, r4, e4, ha4, hb4, hp4, hl4, hd4⟩ := clzStep_ok 2 (by omega) (by omega) hp3 hl3 hd3
  obtain ⟨x5, r5, e5, ha5, hb5, hp5, hl5, hd5⟩ := clzStep_ok 1 (by omega) (by omega) hp4 hl4 hd4
  have hx : x5 = 1#32 := BitVec.eq_of_toNat_eq (by simp; omega)
  have hEq : ecmaBigUintCountLeadingZero d = r5 - 1#32 := by
    simp only [ecmaBigUintCountLeadingZero, List.foldl, e1, e2, e3, e4, e5, hx]
  have hval : (ecmaBigUintCountLeadingZero d).toNat = r5.toNat - 1 := by
    rw [hEq]; bv_omega
  rw [hval]
  obtain ⟨s, hs⟩ : ∃ s, r5.toNat = s + 1 := ⟨r5.toNat - 1, by omega⟩
  rw [hs] at hd5 ⊢
  rw [hx, Nat.add_sub_cancel] at *
  have hw : 2 ^ (32 - (s + 1)) * 2 ^ s = 2 ^ 31 := by rw [← pow_add]; congr 1; omega
  have hlo : 2 ^ (32 - (s + 1)) * 1 ≤ d.toNat := by
    have := Nat.mul_div_le d.toNat (2 ^ (32 - (s + 1)))
    rw [hd5] at this
    exact this
  have hhi : d.toNat < 2 ^ (32 - (s + 1)) * 2 := by
    have := Nat.lt_mul_div_succ d.toNat (Nat.two_pow_pos (32 - (s + 1)))
    rw [hd5] at this
    exact this
  refine ⟨by omega, ?_, ?_⟩
  · rw [← hw]
    exact Nat.mul_le_mul_right _ (by omega)
  · calc d.toNat * 2 ^ s < 2 ^ (32 - (s + 1)) * 2 * 2 ^ s := Nat.mul_lt_mul_of_pos_right hhi (Nat.two_pow_pos s)
      _ = 2 ^ (32 - (s + 1)) * 2 ^ s * 2 := by ring
      _ = 2 ^ 31 * 2 := by rw [hw]

/-- The shift loop, with the bits that leave the last digit. -/
def shiftLeftDigits (shiftLeft : Nat) : List Digit → Digit → List Digit × Digit
  | [], carry => ([], carry)
  | value :: vs, carry =>
    let t := shiftLeftDigits shiftLeft vs (value >>> (32 - shiftLeft))
    (((value <<< shiftLeft) ||| carry) :: t.1, t.2)

/-- `ecma_big_uint_div_shift_left`. -/
def ecmaBigUintDivShiftLeft (value : List Digit) (shiftLeft : Nat) (extend : Bool) : Res (List Digit) := do
  assertDigits value
  if shiftLeft = 0 then do
    jjsAssert extend
    .ok (value ++ [0#32])
  else
    let t := shiftLeftDigits shiftLeft value 0#32
    .ok (if extend then t.1 ++ [t.2] else t.1)

theorem shiftLeft_or {s : Nat} (hs : s < 32) (v c : Digit) (hc : c.toNat < 2 ^ s) :
    ((v <<< s) ||| c).toNat + 2 ^ 32 * (v >>> (32 - s)).toNat = v.toNat * 2 ^ s + c.toNat := by
  have hv := v.isLt
  have hw : 2 ^ (32 - s) * 2 ^ s = 2 ^ 32 := by rw [← pow_add]; congr 1; omega
  have hmod : (v <<< s).toNat = (v.toNat % 2 ^ (32 - s)) <<< s := by
    rw [BitVec.toNat_shiftLeft, Nat.shiftLeft_eq, Nat.shiftLeft_eq, ← hw, Nat.mul_mod_mul_right]
  have hdiv : (v >>> (32 - s)).toNat = v.toNat / 2 ^ (32 - s) := by
    rw [BitVec.toNat_ushiftRight, Nat.shiftRight_eq_div_pow]
  rw [BitVec.toNat_or, hmod, ← Nat.shiftLeft_add_eq_or_of_lt hc, Nat.shiftLeft_eq, hdiv, ← hw]
  have := Nat.mod_add_div v.toNat (2 ^ (32 - s))
  calc v.toNat % 2 ^ (32 - s) * 2 ^ s + c.toNat + 2 ^ (32 - s) * 2 ^ s * (v.toNat / 2 ^ (32 - s))
      = (v.toNat % 2 ^ (32 - s) + 2 ^ (32 - s) * (v.toNat / 2 ^ (32 - s))) * 2 ^ s + c.toNat := by ring
    _ = v.toNat * 2 ^ s + c.toNat := by rw [this]

theorem shiftLeftDigits_val {s : Nat} (hs : s < 32) (vs : List Digit) {carry : Digit} (hc : carry.toNat < 2 ^ s) :
    (shiftLeftDigits s vs carry).1.length = vs.length ∧
      val (shiftLeftDigits s vs carry).1 + (2 ^ 32) ^ vs.length * (shiftLeftDigits s vs carry).2.toNat =
        val vs * 2 ^ s + carry.toNat := by
  induction vs generalizing carry with
  | nil => exact ⟨rfl, by simp [shiftLeftDigits]⟩
  | cons v vs ih =>
    have hc' : (v >>> (32 - s)).toNat < 2 ^ s := by
      rw [BitVec.toNat_ushiftRight, Nat.shiftRight_eq_div_pow, Nat.div_lt_iff_lt_mul (Nat.two_pow_pos _),
        ← pow_add, show s + (32 - s) = 32 by omega]
      exact v.isLt
    obtain ⟨hl, hv⟩ := ih hc'
    have hstep := shiftLeft_or hs v carry hc
    refine ⟨by simp [shiftLeftDigits, hl], ?_⟩
    simp only [shiftLeftDigits, val_cons, List.length_cons, weight_succ, Nat.mul_assoc, Nat.add_mul]
    generalize (2 ^ 32) ^ vs.length * (shiftLeftDigits s vs (v >>> (32 - s))).2.toNat = x at hv ⊢
    omega

/-- The shift with an extra digit is a multiplication. -/
theorem ecmaBigUintDivShiftLeft_extend {value : List Digit} (hn : Trimmed value) (hne : value ≠ []) {s : Nat}
    (hs : s < 32) : ∃ ds, ecmaBigUintDivShiftLeft value s true = .ok ds ∧ ds.length = value.length + 1 ∧
      val ds = val value * 2 ^ s := by
  rw [ecmaBigUintDivShiftLeft, assertDigits_ok hn hne, ok_bind]
  split
  · rename_i h0
    subst h0
    exact ⟨value ++ [0#32], rfl, by simp, by rw [val_concat]; simp⟩
  · obtain ⟨hl, hv⟩ := shiftLeftDigits_val hs value (show (0#32).toNat < 2 ^ s from Nat.two_pow_pos s)
    refine ⟨_, rfl, by simp [hl], ?_⟩
    simpa only [if_true, val_concat, hl, BitVec.toNat_zero, Nat.add_zero] using hv

/-- The shift without an extra digit, when no bit leaves the last digit. -/
theorem ecmaBigUintDivShiftLeft_ok {value : List Digit} (hn : Trimmed value) (hne : value ≠ []) {s : Nat}
    (hs : s < 32) (h0 : s ≠ 0) (hfit : val value * 2 ^ s < (2 ^ 32) ^ value.length) :
    ∃ ds, ecmaBigUintDivShiftLeft value s false = .ok ds ∧ ds.length = value.length ∧
      val ds = val value * 2 ^ s := by
  rw [ecmaBigUintDivShiftLeft, assertDigits_ok hn hne, ok_bind, if_neg h0]
  obtain ⟨hl, hv⟩ := shiftLeftDigits_val hs value (show (0#32).toNat < 2 ^ s from Nat.two_pow_pos s)
  refine ⟨_, rfl, hl, ?_⟩
  simp only [Bool.false_eq_true, if_false]
  generalize (shiftLeftDigits s value 0#32).2 = c at hv
  rw [BitVec.toNat_zero, Nat.add_zero] at hv
  -- the carry is zero, since the product fits
  have hc : c.toNat = 0 := by
    by_contra hne
    have := Nat.le_mul_of_pos_right ((2 ^ 32) ^ value.length) (Nat.pos_of_ne_zero hne)
    omega
  rw [hc] at hv
  omega

/-! ## Division by one digit -/

/-- The loop over the digits below the top one, most significant first: the quotient digits it
writes and the last remainder. -/
def divDigitLoop (divisorDigit : Digit) : List Digit → Digit → List Digit × Digit
  | [], remainder => ([], remainder)
  | d :: ds, remainder =>
    let result : TwoDigits := d.setWidth 64 ||| (remainder.setWidth 64 <<< 32)
    let t := divDigitLoop divisorDigit ds ((result % divisorDigit.setWidth 64).setWidth 32)
    ((result / divisorDigit.setWidth 64).setWidth 32 :: t.1, t.2)

/-- `ecma_big_uint_div_digit`. -/
def ecmaBigUintDivDigit (left : List Digit) (divisorDigit : Digit) (isMod : Bool) : Res (List Digit) := do
  assertDigits left
  jjsAssert (0#32 < divisorDigit)
  let lastDigit := left.getLastD 0#32
  let t := divDigitLoop divisorDigit left.dropLast.reverse (lastDigit % divisorDigit)
  let lastDigit := lastDigit / divisorDigit
  if isMod then
    if t.2 = 0#32 then .ok []
    else do
      ecmaBigintCreate 4
      .ok [t.2]
  else if lastDigit = 0#32 then do
    ecmaBigintCreate (4 * left.length - 4)
    .ok t.1.reverse
  else do
    ecmaBigintCreate (4 * left.length)
    .ok (t.1.reverse ++ [lastDigit])

/-- Two digits as one number. -/
theorem toNat_two_digits (low high : Digit) :
    (low.setWidth 64 ||| (high.setWidth 64 <<< 32) : TwoDigits).toNat = high.toNat * 2 ^ 32 + low.toNat := by
  have h1 := low.isLt
  have h2 := high.isLt
  rw [BitVec.toNat_or, BitVec.toNat_shiftLeft, BitVec.toNat_setWidth, BitVec.toNat_setWidth,
    Nat.mod_eq_of_lt (by omega : low.toNat < 2 ^ 64), Nat.mod_eq_of_lt (by omega : high.toNat < 2 ^ 64),
    Nat.or_comm, Nat.shiftLeft_eq, Nat.mod_eq_of_lt (by omega), ← Nat.shiftLeft_eq,
    ← Nat.shiftLeft_add_eq_or_of_lt h1]

/-- A two-digit number divided by a digit above its high part. -/
theorem toNat_two_digits_div {x : TwoDigits} {d : Digit} (h : x.toNat < 2 ^ 32 * d.toNat) :
    ((x / d.setWidth 64).setWidth 32).toNat = x.toNat / d.toNat ∧
      ((x % d.setWidth 64).setWidth 32).toNat = x.toNat % d.toNat := by
  have hd := d.isLt
  have hpos : 0 < d.toNat := by
    rcases Nat.eq_zero_or_pos d.toNat with h0 | h0
    · rw [h0] at h; omega
    · exact h0
  have hw : (d.setWidth 64).toNat = d.toNat := by
    rw [BitVec.toNat_setWidth, Nat.mod_eq_of_lt (by omega)]
  have hm := Nat.mod_lt x.toNat hpos
  rw [BitVec.toNat_setWidth, BitVec.toNat_setWidth, BitVec.toNat_udiv, BitVec.toNat_umod, hw]
  exact ⟨Nat.mod_eq_of_lt (Nat.div_lt_of_lt_mul (by rwa [Nat.mul_comm] at h)), Nat.mod_eq_of_lt (by omega)⟩

theorem divDigitLoop_val (d : Digit) (ds : List Digit) {r : Digit} (hr : r.toNat < d.toNat) :
    (divDigitLoop d ds r).1.length = ds.length ∧ (divDigitLoop d ds r).2.toNat < d.toNat ∧
      val (divDigitLoop d ds r).1.reverse * d.toNat + (divDigitLoop d ds r).2.toNat =
        val ds.reverse + (2 ^ 32) ^ ds.length * r.toNat := by
  induction ds generalizing r with
  | nil => exact ⟨rfl, hr, by simp [divDigitLoop]⟩
  | cons x xs ih =>
    have hx := x.isLt
    have htwo := toNat_two_digits x r
    obtain ⟨hq, hm⟩ := toNat_two_digits_div
      (show (x.setWidth 64 ||| (r.setWidth 64 <<< 32) : TwoDigits).toNat < 2 ^ 32 * d.toNat by omega)
    have hlt : ((x.setWidth 64 ||| (r.setWidth 64 <<< 32) : TwoDigits).toNat % d.toNat) < d.toNat :=
      Nat.mod_lt _ (by omega)
    obtain ⟨hl, hr', hv⟩ := ih (hm ▸ hlt)
    refine ⟨by simp [divDigitLoop, hl], hr', ?_⟩
    simp only [divDigitLoop, List.reverse_cons, val_concat, List.length_reverse, hl, List.length_cons]
    rw [hm] at hv
    rw [hq, weight_succ, Nat.add_mul]
    have hdm := Nat.div_add_mod (x.setWidth 64 ||| (r.setWidth 64 <<< 32) : TwoDigits).toNat d.toNat
    rw [htwo] at hdm hv ⊢
    have hkey : (2 ^ 32) ^ xs.length * x.toNat + 2 ^ 32 * (2 ^ 32) ^ xs.length * r.toNat =
        (2 ^ 32) ^ xs.length * ((r.toNat * 2 ^ 32 + x.toNat) / d.toNat) * d.toNat +
          (2 ^ 32) ^ xs.length * ((r.toNat * 2 ^ 32 + x.toNat) % d.toNat) := by
      calc (2 ^ 32) ^ xs.length * x.toNat + 2 ^ 32 * (2 ^ 32) ^ xs.length * r.toNat
          = (2 ^ 32) ^ xs.length * (r.toNat * 2 ^ 32 + x.toNat) := by ring
        _ = _ := by conv_lhs => rw [← hdm]
                    ring
    omega

theorem ecmaBigUintDivDigit_ok {left : List Digit} {d : Digit} (hn : Trimmed left) (hd : d ≠ 0#32)
    (hs : 4 * left.length ≤ maxSize) (hle : d.toNat ≤ val left) :
    (∃ ds, Trimmed ds ∧ ds ≠ [] ∧ val ds = val left / d.toNat ∧ ecmaBigUintDivDigit left d false = .ok ds) ∧
      ∃ ds, Trimmed ds ∧ val ds = val left % d.toNat ∧ ecmaBigUintDivDigit left d true = .ok ds := by
  have hpos := toNat_pos hd
  have hd32 := d.isLt
  have hne : left ≠ [] := by rintro rfl; simp at hle; omega
  obtain ⟨as, top, rfl, htop⟩ := hn.exists_concat hne
  have hassert : 0#32 < d := by simpa [BitVec.lt_def] using hpos
  have hm : (top % d).toNat = top.toNat % d.toNat := BitVec.toNat_umod
  have hq : (top / d).toNat = top.toNat / d.toNat := BitVec.toNat_udiv
  obtain ⟨hl, hr, hv⟩ := divDigitLoop_val d as.reverse (hm ▸ Nat.mod_lt _ hpos : (top % d).toNat < d.toNat)
  rw [List.reverse_reverse, List.length_reverse, hm] at hv
  rw [List.length_reverse] at hl
  have hval : (val (divDigitLoop d as.reverse (top % d)).1.reverse + (2 ^ 32) ^ as.length * (top.toNat / d.toNat)) * d.toNat +
      (divDigitLoop d as.reverse (top % d)).2.toNat = val (as ++ [top]) := by
    have hdm := Nat.div_add_mod top.toNat d.toNat
    rw [val_concat, Nat.add_mul]
    conv_rhs => rw [← hdm]
    calc _ = val (divDigitLoop d as.reverse (top % d)).1.reverse * d.toNat +
          (divDigitLoop d as.reverse (top % d)).2.toNat +
          (2 ^ 32) ^ as.length * (top.toNat / d.toNat) * d.toNat := by ring
      _ = val as + (2 ^ 32) ^ as.length * (top.toNat % d.toNat) +
          (2 ^ 32) ^ as.length * (top.toNat / d.toNat) * d.toNat := by rw [hv]
      _ = _ := by ring
  have hdiv : val (divDigitLoop d as.reverse (top % d)).1.reverse + (2 ^ 32) ^ as.length * (top.toNat / d.toNat) =
      val (as ++ [top]) / d.toNat := by
    rw [← hval, Nat.mul_comm _ d.toNat, Nat.mul_add_div hpos, Nat.div_eq_of_lt hr, Nat.add_zero]
  have hmod : (divDigitLoop d as.reverse (top % d)).2.toNat = val (as ++ [top]) % d.toNat := by
    rw [← hval, Nat.mul_comm _ d.toNat, Nat.mul_add_mod, Nat.mod_eq_of_lt hr]
  have hqpos : 0 < val (as ++ [top]) / d.toNat := Nat.div_pos hle hpos
  have hEq : ∀ isMod, ecmaBigUintDivDigit (as ++ [top]) d isMod =
      (if isMod then
        if (divDigitLoop d as.reverse (top % d)).2 = 0#32 then .ok []
        else do
          ecmaBigintCreate 4
          .ok [(divDigitLoop d as.reverse (top % d)).2]
      else if top / d = 0#32 then do
        ecmaBigintCreate (4 * (as ++ [top]).length - 4)
        .ok (divDigitLoop d as.reverse (top % d)).1.reverse
      else do
        ecmaBigintCreate (4 * (as ++ [top]).length)
        .ok ((divDigitLoop d as.reverse (top % d)).1.reverse ++ [top / d])) := by
    intro isMod
    simp only [ecmaBigUintDivDigit, assertDigits_ok hn hne, jjsAssert_ok hassert, ok_bind,
      List.getLastD_concat, List.dropLast_concat]
  generalize divDigitLoop d as.reverse (top % d) = t at hl hr hdiv hmod hEq
  simp only [List.length_append, List.length_singleton] at hs hEq
  constructor
  · rw [hEq]
    simp only [Bool.false_eq_true, if_false]
    split
    · rename_i h0
      have hz : top.toNat / d.toNat = 0 := by rw [← hq, h0]; rfl
      rw [hz, Nat.mul_zero, Nat.add_zero] at hdiv
      have hne' : t.1.reverse ≠ [] := by
        intro h
        rw [h, val_nil] at hdiv
        omega
      have hlen : 0 < as.length := by
        have := List.length_pos_iff.mpr hne'
        rwa [List.length_reverse, hl] at this
      refine ⟨t.1.reverse, trimmed_of_pow_le ?_, hne', hdiv, ?_⟩
      · rw [List.length_reverse, hl, hdiv, Nat.le_div_iff_mul_le hpos]
        have hpow := hn.pow_le_val hne
        simp only [List.length_append, List.length_singleton, Nat.add_sub_cancel] at hpow
        calc (2 ^ 32) ^ (as.length - 1) * d.toNat ≤ (2 ^ 32) ^ (as.length - 1) * 2 ^ 32 :=
              Nat.mul_le_mul_left _ (Nat.le_of_lt hd32)
          _ = (2 ^ 32) ^ as.length := by
              rw [Nat.mul_comm, ← weight_succ, Nat.sub_add_cancel hlen]
          _ ≤ val (as ++ [top]) := hpow
      · rw [show 4 * (as.length + 1) - 4 = 4 * as.length by omega, ecmaBigintCreate_ok hlen (by omega), ok_bind]
    · rename_i h0
      refine ⟨t.1.reverse ++ [top / d], trimmed_concat.mpr h0, by simp, ?_, ?_⟩
      · rw [val_concat, List.length_reverse, hl, hq, hdiv]
      · rw [ecmaBigintCreate_ok (by omega) hs, ok_bind]
  · rw [hEq, if_pos rfl]
    split
    · rename_i h0
      refine ⟨[], trimmed_nil, ?_, rfl⟩
      rw [← hmod, h0]; rfl
    · rename_i h0
      refine ⟨[t.2], ?_, by rw [← hmod]; simp, rfl⟩
      exact (show Trimmed ([] ++ [t.2]) from trimmed_concat.mpr h0)

end BigInt
end JJS
