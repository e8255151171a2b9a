import JJS.BigInt.DivStep
import JJS.BigInt.Value

/-!
# JJS.BigInt.Division

`ecma_big_uint_div_mod` and `ecma_bigint_div_mod`. The main loop of Algorithm D runs over the
positions of the quotient digits from the most significant one down; the buffer holds what is left
of the dividend below the position, and the quotient digits above it.

Invariant of the loop, for the shifted operands `u` and `v`: before position `j` the buffer holds
`u % (B ^ (j + 1) * v)` in its low digits. `EstimateOk` is the condition on a window under which the
step is exact. Results: the loop divides if every window meets it (`divLoop_exact`), and the quotient
is too small as soon as one does not (`divLoop_small`).
-/

namespace JJS
namespace BigInt

open Radix LongDivision

/-! ## The main loop -/

/-- The loop over the `k` positions that are left. -/
def divLoop (ndebug : Bool) (divisor : List Digit) : Nat → List Digit → Res (List Digit)
  | 0, buffer => .ok buffer
  | j + 1, buffer => do
    let s ← divStep ndebug divisor ((buffer.drop j).take (divisor.length + 1))
    divLoop ndebug divisor j (buffer.take j ++ (s.1 ++ s.2 :: buffer.drop (j + divisor.length + 1)))

/-- The estimate for the window `U` is not below its quotient digit; when assertions are checked,
the window also passes the assertion of D3. -/
def EstimateOk (ndebug : Bool) (n v U : Nat) : Prop :=
  U / v ≤ guess (2 ^ 32) (U / (2 ^ 32) ^ (n - 1)) (v / (2 ^ 32) ^ (n - 1)) (v / (2 ^ 32) ^ (n - 2) % 2 ^ 32) ∧
    (ndebug ∨ (U / (2 ^ 32) ^ n = v / (2 ^ 32) ^ (n - 1) →
      U / (2 ^ 32) ^ (n - 1) % 2 ^ 32 < v / (2 ^ 32) ^ (n - 1)))

instance (ndebug : Bool) (n v U : Nat) : Decidable (EstimateOk ndebug n v U) :=
  inferInstanceAs (Decidable (_ ∧ _))

theorem exists_two_top {ds : List Digit} (h : 2 ≤ ds.length) : ∃ xs a b, ds = xs ++ [a, b] := by
  rcases List.eq_nil_or_concat ds with rfl | ⟨ys, b, rfl⟩
  · simp at h
  · rcases List.eq_nil_or_concat ys with rfl | ⟨xs, a, rfl⟩
    · simp at h
    · exact ⟨xs, a, b, by simp⟩

theorem val_top_div (xs : List Digit) (a b : Digit) :
    val (xs ++ [a, b]) / (2 ^ 32) ^ xs.length = b.toNat * 2 ^ 32 + a.toNat ∧
      val (xs ++ [a, b]) / (2 ^ 32) ^ (xs.length + 1) = b.toNat := by
  have ha := a.isLt
  have h1 : val (xs ++ [a, b]) / (2 ^ 32) ^ xs.length = b.toNat * 2 ^ 32 + a.toNat := by
    rw [val_two_top, Nat.add_mul_div_left _ _ (Nat.pow_pos (by decide)), Nat.div_eq_of_lt (val_lt xs),
      Nat.zero_add]
  refine ⟨h1, ?_⟩
  rw [weight_succ, Nat.mul_comm, ← Nat.div_div_eq_div_mul, h1]
  omega

/-- The condition in terms of the leading digits. -/
theorem estimateOk_iff {ndebug : Bool} {vs ws : List Digit} (vl vh u₁ u₀ : Digit) (hl : ws.length = vs.length + 1) :
    EstimateOk ndebug (vs ++ [vl, vh]).length (val (vs ++ [vl, vh])) (val (ws ++ [u₁, u₀])) ↔
      val (ws ++ [u₁, u₀]) / val (vs ++ [vl, vh]) ≤
        guess (2 ^ 32) (u₀.toNat * 2 ^ 32 + u₁.toNat) vh.toNat vl.toNat ∧
      (ndebug ∨ (u₀ = vh → u₁ < vh)) := by
  obtain ⟨hv1, hv2⟩ := val_top_div vs vl vh
  obtain ⟨hu1, hu2⟩ := val_top_div ws u₁ u₀
  have hvl := vl.isLt
  have hu₁ := u₁.isLt
  rw [hl] at hu1 hu2
  simp only [EstimateOk, show (vs ++ [vl, vh]).length = vs.length + 2 by simp,
    show vs.length + 2 - 1 = vs.length + 1 by omega, show vs.length + 2 - 2 = vs.length by omega,
    hv1, hv2, hu1, hu2, BitVec.lt_def]
  rw [show (vh.toNat * 2 ^ 32 + vl.toNat) % 2 ^ 32 = vl.toNat by omega,
    show (u₀.toNat * 2 ^ 32 + u₁.toNat) % 2 ^ 32 = u₁.toNat by omega,
    show (u₀.toNat = vh.toNat ↔ u₀ = vh) from ⟨BitVec.eq_of_toNat_eq, fun h => by rw [h]⟩]

theorem high_pos {vs : List Digit} {vl vh : Digit}
    (h : (2 ^ 32) ^ ((vs ++ [vl, vh]).length - 1) ≤ val (vs ++ [vl, vh])) : 0 < vh.toNat := by
  rw [show (vs ++ [vl, vh]).length - 1 = vs.length + 1 by simp] at h
  rw [← (val_top_div vs vl vh).2]
  exact Nat.div_pos h (Nat.pow_pos (by decide))

section Step

variable {ndebug : Bool} {divisor window : List Digit} (hn : 2 ≤ divisor.length)
  (hw : window.length = divisor.length + 1) (htop : (2 ^ 32) ^ (divisor.length - 1) ≤ val divisor)
  (hU : val window < 2 ^ 32 * val divisor)

include hn hw htop hU

theorem divStep_of_estimateOk (h : EstimateOk ndebug divisor.length (val divisor) (val window)) :
    ∃ r d, divStep ndebug divisor window = .ok (r, d) ∧ r.length = divisor.length ∧
      val r = val window % val divisor ∧ d.toNat = val window / val divisor := by
  obtain ⟨vs, vl, vh, rfl⟩ := exists_two_top hn
  obtain ⟨ws, u₁, u₀, rfl⟩ := exists_two_top (show 2 ≤ window.length by omega)
  have hl : ws.length = vs.length + 1 := by simpa using hw
  obtain ⟨hD, hdbg⟩ := (estimateOk_iff vl vh u₁ u₀ hl).mp h
  obtain ⟨r, d, he, hr, hval, hd⟩ := divStep_exact hl (high_pos htop) hU hdbg hD
  exact ⟨r, d, he, by simpa using hr, hval, hd⟩

theorem divStep_of_not_estimateOk (h : ¬ EstimateOk ndebug divisor.length (val divisor) (val window))
    {r : List Digit} {d : Digit} (he : divStep ndebug divisor window = .ok (r, d)) :
    d.toNat < val window / val divisor := by
  obtain ⟨vs, vl, vh, rfl⟩ := exists_two_top hn
  obtain ⟨ws, u₁, u₀, rfl⟩ := exists_two_top (show 2 ≤ window.length by omega)
  have hl : ws.length = vs.length + 1 := by simpa using hw
  rw [estimateOk_iff vl vh u₁ u₀ hl] at h
  by_cases hdbg : ndebug ∨ (u₀ = vh → u₁ < vh)
  · have hD : guess (2 ^ 32) (u₀.toNat * 2 ^ 32 + u₁.toNat) vh.toNat vl.toNat <
        val (ws ++ [u₁, u₀]) / val (vs ++ [vl, vh]) :=
      Nat.lt_of_not_le fun hle => h ⟨hle, hdbg⟩
    obtain ⟨r', d', he', -, hd⟩ := divStep_small hl (high_pos htop) hU hdbg hD
    rw [he'] at he
    cases he
    exact hd
  · -- the assertion of D3 fails
    exfalso
    have hnd : ndebug = false := by
      cases ndebug with
      | true => exact absurd (Or.inl rfl) hdbg
      | false => rfl
    have hu : u₀ = vh ∧ ¬ u₁ < vh := by
      refine ⟨?_, fun hlt => hdbg (Or.inr fun _ => hlt)⟩
      by_contra hne
      exact hdbg (Or.inr fun heq => absurd heq hne)
    rw [divStep_assertion hl (by rw [hu.1]; exact Nat.lt_irrefl _) hnd hu.2] at he
    cases he

end Step

/-- The loop leaves the digits above its window alone. -/
theorem divLoop_high {ndebug : Bool} {divisor : List Digit} (k : Nat) {buffer buffer' : List Digit}
    (hl : k + divisor.length ≤ buffer.length) (h : divLoop ndebug divisor k buffer = .ok buffer') :
    buffer'.length = buffer.length ∧
      buffer'.drop (k + divisor.length) = buffer.drop (k + divisor.length) := by
  induction k generalizing buffer with
  | zero =>
    cases h
    exact ⟨rfl, rfl⟩
  | succ j ih =>
    unfold divLoop at h
    cases hs : divStep ndebug divisor ((buffer.drop j).take (divisor.length + 1)) with
    | error e =>
      rw [hs, error_bind] at h
      cases h
    | ok s =>
      obtain ⟨r, d⟩ := s
      rw [hs, ok_bind] at h
      have hr := divStep_length (by simp; omega) hs
      obtain ⟨hlen, hdrop⟩ := ih (by simp [hr]; omega) h
      refine ⟨by rw [hlen]; simp [hr]; omega, ?_⟩
      have := congrArg (List.drop 1) hdrop
      rw [List.drop_drop, List.drop_drop] at this
      rw [show j + 1 + divisor.length = j + divisor.length + 1 by omega, this, ← List.append_assoc,
        show j + divisor.length + 1 = (buffer.take j ++ r).length + 1 by simp [hr]; omega, List.drop_length_add_append]
      simp [hr]

section Loop

variable {ndebug : Bool} {divisor : List Digit} {u : Nat} (hn : 2 ≤ divisor.length)
  (htop : (2 ^ 32) ^ (divisor.length - 1) ≤ val divisor)

/-- The window at position `j`, from the invariant. -/
theorem window_val {buffer : List Digit} {n v j : Nat} (hl : j + n + 1 ≤ buffer.length)
    (hinv : val (buffer.take (j + 1 + n)) = u % ((2 ^ 32) ^ (j + 1) * v)) :
    ((buffer.drop j).take (n + 1)).length = n + 1 ∧
      val ((buffer.drop j).take (n + 1)) = u / (2 ^ 32) ^ j % (2 ^ 32 * v) ∧
      val (buffer.take j) = u % (2 ^ 32) ^ j := by
  have hwin : (buffer.drop j).take (n + 1) = (buffer.take (j + 1 + n)).drop j := by
    rw [List.drop_take]
    congr 1
    omega
  have htake : buffer.take j = (buffer.take (j + 1 + n)).take j := by
    rw [List.take_take, Nat.min_eq_left (by omega)]
  refine ⟨by simp; omega, ?_, ?_⟩
  · rw [hwin, val_drop _ (by simp; omega), hinv, window_eq]
  · rw [htake, val_take _ (by simp; omega), hinv, weight_succ, Nat.mul_right_comm, Nat.mod_mul_left_mod]

include hn htop

/-- An exact step takes the invariant to the next position. -/
theorem divLoop_step {buffer : List Digit} {j : Nat} (hl : j + divisor.length + 1 ≤ buffer.length)
    (hinv : val (buffer.take (j + 1 + divisor.length)) = u % ((2 ^ 32) ^ (j + 1) * val divisor))
    (h : EstimateOk ndebug divisor.length (val divisor) (u / (2 ^ 32) ^ j % (2 ^ 32 * val divisor))) :
    ∃ buffer', divLoop ndebug divisor (j + 1) buffer = divLoop ndebug divisor j buffer' ∧
      buffer'.length = buffer.length ∧
      val (buffer'.take (j + divisor.length)) = u % ((2 ^ 32) ^ j * val divisor) ∧
      val (buffer'.drop (j + divisor.length)) =
        u / val divisor / (2 ^ 32) ^ j % 2 ^ 32 + 2 ^ 32 * val (buffer.drop (j + divisor.length + 1)) := by
  have hv : 0 < val divisor := Nat.lt_of_lt_of_le (Nat.pow_pos (by decide)) htop
  obtain ⟨hwl, hwv, hlow⟩ := window_val hl hinv
  rw [← hwv] at h
  obtain ⟨r, d, he, hr, hval, hd⟩ := divStep_of_estimateOk hn hwl htop
    (hwv ▸ Nat.mod_lt _ (Nat.mul_pos (by decide) hv)) h
  refine ⟨buffer.take j ++ (r ++ d :: buffer.drop (j + divisor.length + 1)), ?_, ?_, ?_, ?_⟩
  · conv_lhs => rw [divLoop, he, ok_bind]
  · simp [hr]; omega
  · have hsplit : (buffer.take j ++ (r ++ d :: buffer.drop (j + divisor.length + 1))).take (j + divisor.length) =
        buffer.take j ++ r := by
      rw [← List.append_assoc, List.take_append_of_le_length (by simp [hr]; omega), List.take_of_length_le (by simp [hr])]
    rw [hsplit, val_append, hlow, hval, hwv, List.length_take, Nat.min_eq_left (by omega), mod_split (B := 2 ^ 32) u (val divisor) j]
  · have hsplit : (buffer.take j ++ (r ++ d :: buffer.drop (j + divisor.length + 1))).drop (j + divisor.length) =
        d :: buffer.drop (j + divisor.length + 1) := by
      rw [← List.append_assoc, show j + divisor.length = (buffer.take j ++ r).length by simp [hr]; omega,
        List.drop_left]
    rw [hsplit, val_cons, hd, hwv, window_div]

/-- The loop divides, if every window is estimated well. -/
theorem divLoop_exact (k : Nat) {buffer : List Digit} (hl : k + divisor.length ≤ buffer.length)
    (hinv : val (buffer.take (k + divisor.length)) = u % ((2 ^ 32) ^ k * val divisor))
    (h : ∀ j, j < k → EstimateOk ndebug divisor.length (val divisor) (u / (2 ^ 32) ^ j % (2 ^ 32 * val divisor))) :
    ∃ buffer', divLoop ndebug divisor k buffer = .ok buffer' ∧ buffer'.length = buffer.length ∧
      val (buffer'.take divisor.length) = u % val divisor ∧
      val (buffer'.drop divisor.length) =
        u / val divisor % (2 ^ 32) ^ k + (2 ^ 32) ^ k * val (buffer.drop (k + divisor.length)) := by
  induction k generalizing buffer with
  | zero =>
    refine ⟨buffer, rfl, rfl, ?_, ?_⟩
    · simpa using hinv
    · simp [Nat.mod_one]
  | succ j ih =>
    obtain ⟨b, heq, hbl, hbv, hbd⟩ := divLoop_step hn htop (by omega) hinv (h j (Nat.lt_succ_self j))
    obtain ⟨buffer', he, hlen, hrem, hquo⟩ := ih (by omega) hbv (fun i hi => h i (by omega))
    refine ⟨buffer', by rw [heq, he], by omega, hrem, ?_⟩
    rw [hquo, hbd, quotient_split (B := 2 ^ 32) _ j, show j + 1 + divisor.length = j + divisor.length + 1 by omega, weight_succ]
    ring

/-- One window that is estimated too low makes the quotient too small. -/
theorem divLoop_small (k : Nat) {buffer : List Digit} (hl : k + divisor.length ≤ buffer.length)
    (hinv : val (buffer.take (k + divisor.length)) = u % ((2 ^ 32) ^ k * val divisor))
    (h : ∃ j, j < k ∧ ¬ EstimateOk ndebug divisor.length (val divisor) (u / (2 ^ 32) ^ j % (2 ^ 32 * val divisor)))
    {buffer' : List Digit} (he : divLoop ndebug divisor k buffer = .ok buffer') :
    val (buffer'.drop divisor.length) <
      u / val divisor % (2 ^ 32) ^ k + (2 ^ 32) ^ k * val (buffer.drop (k + divisor.length)) := by
  induction k generalizing buffer with
  | zero =>
    obtain ⟨j, hj, -⟩ := h
    omega
  | succ j ih =>
    rw [show j + 1 + divisor.length = j + divisor.length + 1 by omega]
    by_cases hj : EstimateOk ndebug divisor.length (val divisor) (u / (2 ^ 32) ^ j % (2 ^ 32 * val divisor))
    · obtain ⟨b, heq, hbl, hbv, hbd⟩ := divLoop_step hn htop (by omega) hinv hj
      have hlow : ∃ i, i < j ∧
          ¬ EstimateOk ndebug divisor.length (val divisor) (u / (2 ^ 32) ^ i % (2 ^ 32 * val divisor)) := by
        obtain ⟨i, hi, hbad⟩ := h
        refine ⟨i, ?_, hbad⟩
        rcases Nat.lt_succ_iff_lt_or_eq.mp hi with hlt | rfl
        · exact hlt
        · exact absurd hj hbad
      have := ih (by omega) hbv hlow (by rw [← heq, he])
      rw [hbd] at this
      rw [quotient_split (B := 2 ^ 32) _ j, weight_succ]
      calc _ < _ := this
        _ = _ := by ring
    · -- this digit is too small, and the later steps keep it
      have hv : 0 < val divisor := Nat.lt_of_lt_of_le (Nat.pow_pos (by decide)) htop
      obtain ⟨hwl, hwv, hlow⟩ := window_val (by omega) hinv
      unfold divLoop at he
      cases hs : divStep ndebug divisor ((buffer.drop j).take (divisor.length + 1)) with
      | error e =>
        rw [hs, error_bind] at he
        cases he
      | ok s =>
        obtain ⟨r, d⟩ := s
        rw [hs, ok_bind] at he
        have hr := divStep_length (by omega) hs
        rw [← hwv] at hj
        have hd := divStep_of_not_estimateOk hn hwl htop (hwv ▸ Nat.mod_lt _ (Nat.mul_pos (by decide) hv)) hj hs
        rw [hwv, window_div] at hd
        obtain ⟨hlen, hdrop⟩ := divLoop_high j (by simp [hr]; omega) he
        rw [← List.append_assoc, show j + divisor.length = (buffer.take j ++ r).length by simp [hr]; omega,
          List.drop_left, List.length_append, List.length_take, Nat.min_eq_left (by omega), hr] at hdrop
        have hbl : buffer'.length = buffer.length := by rw [hlen]; simp [hr]; omega
        have hval : val (buffer'.drop divisor.length) =
            val ((buffer'.drop divisor.length).take j) + (2 ^ 32) ^ j *
              (d.toNat + 2 ^ 32 * val (buffer.drop (j + divisor.length + 1))) := by
          have hsum := val_take_add_drop (buffer'.drop divisor.length) (show j ≤ _ by simp; omega)
          rw [List.drop_drop, Nat.add_comm divisor.length j, hdrop, val_cons] at hsum
          exact hsum.symm
        have hlt := val_lt ((buffer'.drop divisor.length).take j)
        rw [List.length_take, Nat.min_eq_left (by simp; omega)] at hlt
        rw [hval, quotient_split (B := 2 ^ 32) _ j, weight_succ]
        generalize val (buffer.drop (j + divisor.length + 1)) = H
        have hmul := Nat.mul_le_mul_left ((2 ^ 32) ^ j) hd
        calc _ < (2 ^ 32) ^ j + (2 ^ 32) ^ j * (d.toNat + 2 ^ 32 * H) := Nat.add_lt_add_right hlt _
          _ = (2 ^ 32) ^ j * (d.toNat + 1) + 2 ^ 32 * (2 ^ 32) ^ j * H := by ring
          _ ≤ (2 ^ 32) ^ j * (u / val divisor / (2 ^ 32) ^ j % 2 ^ 32) + 2 ^ 32 * (2 ^ 32) ^ j * H :=
              Nat.add_le_add_right hmul _
          _ ≤ _ := Nat.add_le_add_right (Nat.le_add_left _ _) _

end Loop

/-! ## The results -/

/-- The quotient digits are the ones from `n` on; a zero at the end is left out. -/
def divQuotient (n m : Nat) (buffer : List Digit) : Res (List Digit) :=
  let sourceEnd := if buffer.getD m 0#32 ≠ 0#32 then m + 1 else m
  let source := (buffer.take sourceEnd).drop n
  if source = [] then .ok []
  else do
    ecmaBigintCreate (4 * source.length)
    .ok source

/-- The scan for the last digit of the remainder that is not zero. -/
def divScanEnd (buffer : List Digit) : Nat → Nat
  | 0 => 0
  | i + 1 => if buffer.getD (i + 1) 0#32 = 0#32 then divScanEnd buffer i else i + 1

/-- The shift loop of the remainder, most significant digit first. -/
def shiftRightDigits (shiftRight : Nat) : List Digit → Digit → List Digit
  | [], _ => []
  | value :: vs, carry =>
    ((value >>> shiftRight) ||| carry) :: shiftRightDigits shiftRight vs (value <<< (32 - shiftRight))

/-- The remainder is in the first `n` digits, shifted left. -/
def divRemainder (n shiftLeft : Nat) (buffer : List Digit) : Res (List Digit) :=
  let e := divScanEnd buffer (n - 1)
  let s := if buffer.getD e 0#32 >>> shiftLeft ≠ 0#32 then (buffer.set (e + 1) 0#32, e + 1) else (buffer, e)
  if 0 < s.2 then do
    ecmaBigintCreate (4 * s.2)
    if 0 < shiftLeft then
      .ok (shiftRightDigits shiftLeft (s.1.take s.2).reverse (s.1.getD s.2 0#32 <<< (32 - shiftLeft))).reverse
    else .ok (s.1.take s.2)
  else .ok []

theorem divScanEnd_spec (buffer : List Digit) (i : Nat) (hi : i < buffer.length) :
    divScanEnd buffer i ≤ i ∧ val (buffer.take (divScanEnd buffer i + 1)) = val (buffer.take (i + 1)) ∧
      (divScanEnd buffer i = 0 ∨ buffer.getD (divScanEnd buffer i) 0#32 ≠ 0#32) := by
  induction i with
  | zero => exact ⟨Nat.le_refl _, rfl, Or.inl rfl⟩
  | succ i ih =>
    unfold divScanEnd
    split
    · rename_i h0
      obtain ⟨hle, hv, hor⟩ := ih (by omega)
      refine ⟨by omega, ?_, hor⟩
      have hd : buffer[i + 1] = 0#32 := by simpa [List.getD, hi] using h0
      rw [hv, List.take_succ_eq_append_getElem hi, val_concat, hd]
      simp
    · rename_i h0
      exact ⟨Nat.le_refl _, rfl, Or.inr h0⟩

theorem shiftRight_or {s : Nat} (hs : s < 32) (v c : Digit) :
    ((v >>> s) ||| (c <<< (32 - s))).toNat * 2 ^ s + v.toNat % 2 ^ s = v.toNat + 2 ^ 32 * (c.toNat % 2 ^ s) := by
  have hw : 2 ^ s * 2 ^ (32 - s) = 2 ^ 32 := by rw [← pow_add]; congr 1; omega
  have hv : v.toNat / 2 ^ s < 2 ^ (32 - s) := by
    rw [Nat.div_lt_iff_lt_mul (Nat.two_pow_pos s), Nat.mul_comm, hw]
    exact v.isLt
  have hc : (c <<< (32 - s)).toNat = (c.toNat % 2 ^ s) <<< (32 - s) := by
    rw [BitVec.toNat_shiftLeft, Nat.shiftLeft_eq, Nat.shiftLeft_eq, ← hw, Nat.mul_mod_mul_right]
  rw [BitVec.toNat_or, hc, BitVec.toNat_ushiftRight, Nat.shiftRight_eq_div_pow, Nat.or_comm,
    ← Nat.shiftLeft_add_eq_or_of_lt hv, Nat.shiftLeft_eq, ← hw]
  have hdm := Nat.mod_add_div v.toNat (2 ^ s)
  calc (c.toNat % 2 ^ s * 2 ^ (32 - s) + v.toNat / 2 ^ s) * 2 ^ s + v.toNat % 2 ^ s
      = v.toNat % 2 ^ s + 2 ^ s * (v.toNat / 2 ^ s) + 2 ^ s * 2 ^ (32 - s) * (c.toNat % 2 ^ s) := by ring
    _ = v.toNat + 2 ^ s * 2 ^ (32 - s) * (c.toNat % 2 ^ s) := by rw [hdm]

/-- The shift loop divides, with the low bits of the digit above as the incoming bits. -/
theorem shiftRightDigits_val {s : Nat} (hs : s < 32) (vs : List Digit) (c : Digit) :
    (shiftRightDigits s vs (c <<< (32 - s))).length = vs.length ∧
      val (shiftRightDigits s vs (c <<< (32 - s))).reverse =
        (val vs.reverse + (2 ^ 32) ^ vs.length * (c.toNat % 2 ^ s)) / 2 ^ s := by
  induction vs generalizing c with
  | nil =>
    refine ⟨rfl, ?_⟩
    simp [shiftRightDigits, Nat.div_eq_of_lt (Nat.mod_lt _ (Nat.two_pow_pos s))]
  | cons v vs ih =>
    obtain ⟨hl, hv⟩ := ih v
    have hstep := shiftRight_or hs v c
    refine ⟨by simp [shiftRightDigits, hl], ?_⟩
    simp only [shiftRightDigits, List.reverse_cons, val_concat, List.length_reverse, hl, hv, List.length_cons]
    rw [weight_succ]
    generalize ((v >>> s) ||| (c <<< (32 - s))).toNat = x at hstep ⊢
    have hexp : val vs.reverse + (2 ^ 32) ^ vs.length * v.toNat + 2 ^ 32 * (2 ^ 32) ^ vs.length * (c.toNat % 2 ^ s) =
        val vs.reverse + (2 ^ 32) ^ vs.length * (v.toNat % 2 ^ s) + 2 ^ s * ((2 ^ 32) ^ vs.length * x) := by
      calc _ = val vs.reverse + (2 ^ 32) ^ vs.length * (v.toNat + 2 ^ 32 * (c.toNat % 2 ^ s)) := by ring
        _ = val vs.reverse + (2 ^ 32) ^ vs.length * (x * 2 ^ s + v.toNat % 2 ^ s) := by rw [hstep]
        _ = _ := by ring
    rw [hexp, Nat.add_mul_div_left _ _ (Nat.two_pow_pos s)]

/-- The digits taken for the remainder, shifted back. -/
theorem shiftBack_val {s : Nat} (hs : s < 32) (ds : List Digit) (top : Digit) :
    ∃ rs, (if 0 < s then .ok (shiftRightDigits s ds.reverse (top <<< (32 - s))).reverse else .ok ds : Res _) =
      .ok rs ∧ rs.length = ds.length ∧ val rs = (val ds + (2 ^ 32) ^ ds.length * (top.toNat % 2 ^ s)) / 2 ^ s := by
  by_cases h0 : 0 < s
  · obtain ⟨hl, hv⟩ := shiftRightDigits_val hs ds.reverse top
    rw [List.reverse_reverse, List.length_reverse] at hv
    exact ⟨_, if_pos h0, by simpa using hl, hv⟩
  · have hz : s = 0 := by omega
    subst hz
    exact ⟨ds, rfl, rfl, by simp [Nat.mod_one]⟩

theorem divRemainder_ok {buffer : List Digit} {n s R : Nat} (hn : 0 < n) (hl : n < buffer.length)
    (hfit : 4 * n ≤ maxSize) (hs : s < 32) (hR : val (buffer.take n) = R * 2 ^ s) :
    ∃ ds, Trimmed ds ∧ val ds = R ∧ divRemainder n s buffer = .ok ds := by
  obtain ⟨hle, hv, hor⟩ := divScanEnd_spec buffer (n - 1) (by omega)
  rw [Nat.sub_add_cancel hn, hR] at hv
  simp only [divRemainder]
  generalize divScanEnd buffer (n - 1) = e at hle hv hor ⊢
  have he : e < buffer.length := by omega
  have hget : buffer.getD e 0#32 = buffer[e] := by simp [List.getD, he]
  rw [List.take_succ_eq_append_getElem he, val_concat, List.length_take, Nat.min_eq_left (by omega)] at hv
  rw [hget] at hor ⊢
  generalize htop : buffer[e] = top at hv hor ⊢
  have hshift : (top >>> s).toNat = top.toNat / 2 ^ s := by
    rw [BitVec.toNat_ushiftRight, Nat.shiftRight_eq_div_pow]
  have hpow : 2 ^ s ≤ 2 ^ 32 := Nat.pow_le_pow_right (by decide) (by omega)
  by_cases hx : top >>> s = 0#32
  · -- the top digit only has bits that the shift moves to the digit below
    have hlt : top.toNat < 2 ^ s := by
      rw [← Nat.div_eq_zero_iff_lt (Nat.two_pow_pos s), ← hshift, hx]
      rfl
    simp only [hx, ne_eq, not_true_eq_false, if_false]
    by_cases h0 : 0 < e
    · have htop1 : 1 ≤ top.toNat := toNat_pos (hor.resolve_left (by omega))
      obtain ⟨rs, hrs, hrl, hrv⟩ := shiftBack_val hs (buffer.take e) top
      rw [List.length_take, Nat.min_eq_left (by omega)] at hrl hrv
      rw [Nat.mod_eq_of_lt hlt, hv, Nat.mul_div_cancel _ (Nat.two_pow_pos s)] at hrv
      refine ⟨rs, trimmed_of_pow_le ?_, hrv, ?_⟩
      · rw [hrl, hrv]
        have h1 : (2 ^ 32) ^ (e - 1) * 2 ^ s ≤ R * 2 ^ s := by
          calc (2 ^ 32) ^ (e - 1) * 2 ^ s ≤ (2 ^ 32) ^ (e - 1) * 2 ^ 32 := Nat.mul_le_mul_left _ hpow
            _ = (2 ^ 32) ^ e := by rw [Nat.mul_comm, ← weight_succ, Nat.sub_add_cancel h0]
            _ ≤ (2 ^ 32) ^ e * top.toNat := Nat.le_mul_of_pos_right _ htop1
            _ ≤ R * 2 ^ s := by rw [← hv]; exact Nat.le_add_left _ _
        exact Nat.le_of_mul_le_mul_right h1 (Nat.two_pow_pos s)
      · rw [if_pos h0, ecmaBigintCreate_ok h0 (by omega), ok_bind, show buffer.getD e 0#32 = top by rw [hget, htop]]
        exact hrs
    · have hz : e = 0 := by omega
      subst hz
      simp only [List.take_zero, val_nil, Nat.pow_zero, Nat.one_mul, Nat.zero_add] at hv
      have hR0 : R = 0 := by
        by_contra hne
        have := Nat.le_mul_of_pos_left (2 ^ s) (Nat.pos_of_ne_zero hne)
        omega
      exact ⟨[], trimmed_nil, by rw [hR0]; rfl, if_neg h0⟩
  · rw [if_pos hx, if_pos (Nat.succ_pos e), ecmaBigintCreate_ok (Nat.succ_pos e) (by omega), ok_bind]
    have htake : (buffer.set (e + 1) 0#32).take (e + 1) = buffer.take e ++ [top] := by
      rw [List.take_set_of_le (Nat.le_refl _), List.take_succ_eq_append_getElem he, htop]
    have hset : (buffer.set (e + 1) 0#32).getD (e + 1) 0#32 = 0#32 := by
      simp only [List.getD, List.getElem?_set_self']
      cases buffer[e + 1]? <;> rfl
    rw [htake, hset]
    obtain ⟨rs, hrs, hrl, hrv⟩ := shiftBack_val hs (buffer.take e ++ [top]) 0#32
    rw [BitVec.toNat_zero, Nat.zero_mod, Nat.mul_zero, Nat.add_zero, val_concat, List.length_take,
      Nat.min_eq_left (by omega), hv, Nat.mul_div_cancel _ (Nat.two_pow_pos s)] at hrv
    refine ⟨rs, trimmed_of_pow_le ?_, hrv, hrs⟩
    have hlen : rs.length - 1 = e := by rw [hrl]; simp; omega
    have htop1 : 2 ^ s ≤ top.toNat := by
      by_contra hlt
      apply hx
      apply BitVec.eq_of_toNat_eq
      rw [hshift, Nat.div_eq_of_lt (by omega)]
      rfl
    rw [hlen, hrv]
    have h1 : (2 ^ 32) ^ e * 2 ^ s ≤ R * 2 ^ s := by
      calc (2 ^ 32) ^ e * 2 ^ s ≤ (2 ^ 32) ^ e * top.toNat := Nat.mul_le_mul_left _ htop1
        _ ≤ R * 2 ^ s := by rw [← hv]; exact Nat.le_add_left _ _
    exact Nat.le_of_mul_le_mul_right h1 (Nat.two_pow_pos s)

/-- The digits taken for the quotient denote all of it. -/
theorem divQuotient_val {buffer : List Digit} {n m : Nat} (hl : buffer.length = m + 1) (hnm : n ≤ m) (hn : 0 < n)
    (hfit : 4 * m ≤ maxSize) :
    ∃ ds, divQuotient n m buffer = .ok ds ∧ val ds = val (buffer.drop n) ∧ (ds.length = m - n ∨ Trimmed ds) := by
  obtain ⟨low, top, rfl⟩ : ∃ low top, buffer = low ++ [top] := by
    rcases List.eq_nil_or_concat buffer with rfl | ⟨low, top, rfl⟩
    · simp at hl
    · exact ⟨low, top, by simp⟩
  have hlow : low.length = m := by simpa using hl
  have hget : (low ++ [top]).getD m 0#32 = top := by simp [List.getD, ← hlow]
  have hdrop : (low ++ [top]).drop n = low.drop n ++ [top] := List.drop_append_of_le_length (by omega)
  have hcreate : ∀ source : List Digit, source.length ≤ m →
      (if source = [] then .ok [] else do
        ecmaBigintCreate (4 * source.length)
        .ok source : Res (List Digit)) = .ok source := by
    intro source hsl
    split
    · rename_i h; rw [h]
    · rename_i h
      rw [ecmaBigintCreate_ok (List.length_pos_iff.mpr h) (by omega), ok_bind]
  unfold divQuotient
  rw [hget]
  by_cases h0 : top = 0#32
  · subst h0
    refine ⟨low.drop n, ?_, ?_, Or.inl (by simp [hlow])⟩
    · simp only [ne_eq, not_true_eq_false, if_false]
      rw [← hlow, List.take_left]
      exact hcreate _ (by simp; omega)
    · rw [hdrop, val_concat]; simp
  · refine ⟨low.drop n ++ [top], ?_, by rw [hdrop], Or.inr (trimmed_concat.mpr h0)⟩
    simp only [if_pos h0]
    rw [List.take_of_length_le (by simp; omega), hdrop]
    exact hcreate _ (by simp; omega)

end BigInt
end JJS
