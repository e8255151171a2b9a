import JJS.BigInt.Value
import JJS.Lit.White

/-!
# JJS.BigInt.Parse

`ecma_bigint_parse_string`, without options. The digits are multiplied into a BigInt that is the null pointer before
the first digit that is not zero, as it is after an allocation that failed.
-/

namespace JJS
namespace BigInt

open Radix Utf8 Lit

/-! ## Multiplication by a digit -/

/-- The loop of `ecma_big_uint_mul_digit`. -/
def mulDigitLoop (mul : Digit) : List Digit → Digit → List Digit × Digit
  | [], carry => ([], carry)
  | current :: ds, carry =>
    let multiplyResult : TwoDigits := current.setWidth 64 * mul.setWidth 64
    let newCarry : Digit := (multiplyResult >>> 32).setWidth 32
    let low : Digit := multiplyResult.setWidth 32 + carry
    let t := mulDigitLoop mul ds (if low < carry then newCarry + 1#32 else newCarry)
    (low :: t.1, t.2)

/-- `ecma_big_uint_mul_digit`. -/
def ecmaBigUintMulDigit (value : Option (List Digit)) (mul add : Digit) : Res (List Digit) := do
  jjsAssert (1#32 < mul)
  jjsAssert (add < mul)
  match value with
  | none => do
    jjsAssert (0#32 < add)
    ecmaBigintCreate 4
    .ok [add]
  | some value => do
    assertDigits value
    let t := mulDigitLoop mul value add
    if t.2 = 0#32 then .ok t.1 else ecmaBigUintExtend t.1 t.2

/-! ## Parsing -/

/-- `lit_char_to_radix`. -/
def litCharToRadix (c : Byte) : Digit :=
  if lexerToAsciiLowercase c = 0x78#8 then 16#32
  else if lexerToAsciiLowercase c = 0x6f#8 then 8#32
  else if lexerToAsciiLowercase c = 0x62#8 then 2#32
  else 10#32

/-- The radix, the sign, and the text behind the radix prefix or the sign. -/
def parseMark (s : List Byte) : Digit × Bool × List Byte :=
  if 3 ≤ s.length ∧ s.getD 0 0#8 = 0x30#8 then
    let radix := litCharToRadix (s.getD 1 0#8)
    if radix ≠ 10#32 then (radix, false, s.drop 2) else (radix, false, s)
  else if 2 ≤ s.length then
    if s.getD 0 0#8 = 0x2b#8 then (10#32, false, s.drop 1)
    else if s.getD 0 0#8 = 0x2d#8 then (10#32, true, s.drop 1)
    else (10#32, false, s)
  else (10#32, false, s)

/-- The digit of a character, up to `f`. -/
def charDigit (c : Byte) : Option Digit :=
  let character := lexerToAsciiLowercase c
  if 0x30#8 ≤ c ∧ c ≤ 0x39#8 then some ((c - 0x30#8).setWidth 32)
  else if 0x61#8 ≤ character ∧ character ≤ 0x66#8 then some ((character - (0x61#8 - 10#8)).setWidth 32)
  else none

/-- The loop over the digits. White space at the end of the text ends it. -/
def parseLoop (radix : Digit) : List Byte → Option (List Digit) → Res (Option (List Digit))
  | [], result => .ok result
  | c :: rest, result =>
    match charDigit c with
    | some digit =>
      if radix ≤ digit then .error .syntaxError
      else do
        let result ← ecmaBigUintMulDigit result radix digit
        parseLoop radix rest (some result)
    | none =>
      match ecmaStringTrimFront (c :: rest) with
      | none => .error .assertion
      | some [] => .ok result
      | some _ => .error .syntaxError

/-- The value, or a failed allocation. -/
def parsedValue (sign : Bool) : Option (List Digit) → Res Block
  | none => .error .null
  | some result => .ok ⟨sign, result⟩

/-- The part of `ecma_bigint_parse_string` behind the mark. -/
def parseDigits (radix : Digit) (sign : Bool) (s : List Byte) : Res Block :=
  let digits := s.dropWhile (· == 0x30#8)
  if digits = [] then .ok Block.zero
  else do
    let result ← parseLoop radix digits none
    parsedValue sign result

/-- `ecma_bigint_parse_string`. -/
def ecmaBigintParseString (s : List Byte) : Res Block :=
  match ecmaStringTrimFront s with
  | none => .error .assertion
  | some s =>
    if s = [] then .ok Block.zero
    else
      let m := parseMark s
      parseDigits m.1 m.2.1 m.2.2

/-! ## Numerals -/

/-- A digit of a radix. -/
def IsDigitOf (radix : Digit) (c : Byte) : Prop := ∃ d, Ecma404.hexDigit c = some d ∧ d < radix.toNat

instance (radix : Digit) (c : Byte) : Decidable (IsDigitOf radix c) :=
  match h : Ecma404.hexDigit c with
  | none => isFalse fun ⟨_, hd, _⟩ => nomatch h.symm.trans hd
  | some d =>
    decidable_of_iff (d < radix.toNat) ⟨fun hlt => ⟨d, h, hlt⟩, fun ⟨_, hd, hlt⟩ => Option.some.inj (h.symm.trans hd) ▸ hlt⟩

def charValue (c : Byte) : Nat := (Ecma404.hexDigit c).getD 0

/-- The number of a sequence of digits behind the digits of `n`. -/
def textValue (radix : Digit) (n : Nat) (ds : List Byte) : Nat := ds.foldl (fun n c => n * radix.toNat + charValue c) n

/-- A number whose digits a BigInt can hold. -/
def Fits (n : Nat) : Prop := n < (2 ^ 32) ^ (maxSize / 4)

theorem fits_iff {ds : List Digit} (h : Trimmed ds) : 4 * ds.length ≤ maxSize ↔ Fits (val ds) := by
  have hdiv : 4 * ds.length ≤ maxSize ↔ ds.length ≤ maxSize / 4 := by omega
  rw [hdiv, h.length_le_iff (by decide), Fits]

/-- One step of the loop. -/
theorem mulDigit_step (current mul carry : Digit) :
    ∃ low c : Digit, (∀ ds, mulDigitLoop mul (current :: ds) carry = (low :: (mulDigitLoop mul ds c).1, (mulDigitLoop mul ds c).2)) ∧
      low.toNat + 2 ^ 32 * c.toNat = current.toNat * mul.toNat + carry.toNat := by
  have h1 := current.isLt
  have h2 := mul.isLt
  have h3 := carry.isLt
  have hprod : current.toNat * mul.toNat ≤ (2 ^ 32 - 1) * (2 ^ 32 - 1) := Nat.mul_le_mul (by omega) (by omega)
  have hm := toNat_digit_mul current mul
  refine ⟨_, _, fun ds => rfl, ?_⟩
  generalize (current.setWidth 64 * mul.setWidth 64 : TwoDigits) = m at hm ⊢
  have hlow : (m.setWidth 32).toNat = m.toNat % 2 ^ 32 := BitVec.toNat_setWidth 32 m
  have hhigh : ((m >>> 32).setWidth 32).toNat = m.toNat / 2 ^ 32 := by
    rw [BitVec.toNat_setWidth, BitVec.toNat_ushiftRight, Nat.shiftRight_eq_div_pow]
    omega
  generalize m.setWidth 32 = low at hlow ⊢
  generalize (m >>> 32).setWidth 32 = high at hhigh ⊢
  rw [← hm] at hprod ⊢
  -- The product leaves room for the carry.
  have hsplit : m.toNat = low.toNat + 2 ^ 32 * high.toNat := by omega
  have hroom : high.toNat < 2 ^ 32 - 1 := by omega
  by_cases hov : low + carry < carry
  · rw [if_pos hov]
    bv_omega
  · rw [if_neg hov]
    bv_omega

theorem mulDigitLoop_val (mul : Digit) (ds : List Digit) (carry : Digit) :
    (mulDigitLoop mul ds carry).1.length = ds.length ∧
      val (mulDigitLoop mul ds carry).1 + (2 ^ 32) ^ ds.length * (mulDigitLoop mul ds carry).2.toNat =
        val ds * mul.toNat + carry.toNat := by
  induction ds generalizing carry with
  | nil => exact ⟨rfl, by simp [mulDigitLoop]⟩
  | cons d ds ih =>
    obtain ⟨low, c, heq, hstep⟩ := mulDigit_step d mul carry
    obtain ⟨hl, hv⟩ := ih c
    rw [heq ds]
    refine ⟨by rw [List.length_cons, List.length_cons, hl], ?_⟩
    rw [val_cons, val_cons, List.length_cons, weight_succ, Nat.mul_assoc]
    calc low.toNat + 2 ^ 32 * val (mulDigitLoop mul ds c).1 + 2 ^ 32 * ((2 ^ 32) ^ ds.length * (mulDigitLoop mul ds c).2.toNat)
        = low.toNat + 2 ^ 32 * (val (mulDigitLoop mul ds c).1 + (2 ^ 32) ^ ds.length * (mulDigitLoop mul ds c).2.toNat) := by
          rw [Nat.mul_add, Nat.add_assoc]
      _ = low.toNat + 2 ^ 32 * c.toNat + 2 ^ 32 * (val ds * mul.toNat) := by
          rw [hv]
          ring
      _ = (d.toNat + 2 ^ 32 * val ds) * mul.toNat + carry.toNat := by
          rw [hstep]
          ring

/-- What the result pointer stands for: nothing has been multiplied yet, or a BigInt. -/
def Holds (result : Option (List Digit)) (n : Nat) : Prop :=
  match result with
  | none => n = 0
  | some ds => Trimmed ds ∧ ds ≠ [] ∧ val ds = n ∧ Fits n

theorem ecmaBigUintMulDigit_some {value : List Digit} {mul add : Digit} (hn : Trimmed value) (hne : value ≠ [])
    (hfit : 4 * value.length ≤ maxSize) (hmul : 1 < mul.toNat) (hadd : add.toNat < mul.toNat) :
    ∃ ds, Trimmed ds ∧ ds ≠ [] ∧ val ds = val value * mul.toNat + add.toNat ∧
      ecmaBigUintMulDigit (some value) mul add = boxed ds := by
  have h1 : 1#32 < mul := by
    rw [BitVec.lt_def]
    exact hmul
  obtain ⟨hl, hv⟩ := mulDigitLoop_val mul value add
  simp only [ecmaBigUintMulDigit, jjsAssert_ok h1, jjsAssert_ok (BitVec.lt_def.mpr hadd), assertDigits_ok hn hne, ok_bind]
  generalize mulDigitLoop mul value add = t at hl hv ⊢
  have hpos := hn.val_pos hne
  have htne : t.1 ≠ [] := by
    intro hnil
    rw [hnil] at hl
    exact hne (List.length_eq_zero_iff.mp hl.symm)
  by_cases hc : t.2 = 0#32
  · rw [hc, BitVec.toNat_zero, Nat.mul_zero, Nat.add_zero] at hv
    refine ⟨t.1, trimmed_of_pow_le ?_, htne, hv, ?_⟩
    · rw [hl, hv]
      have hge := hn.pow_le_val hne
      have hmul' : val value ≤ val value * mul.toNat := Nat.le_mul_of_pos_right _ (by omega)
      omega
    · rw [if_pos hc, boxed_ok (by omega)]
  · refine ⟨t.1 ++ [t.2], trimmed_concat.mpr hc, by simp, ?_, ?_⟩
    · rw [val_concat, hl, hv]
    · rw [if_neg hc, ecmaBigUintExtend_eq _ (by omega)]

theorem trimmed_singleton {d : Digit} (h : 0 < d.toNat) : Trimmed [d] := by
  have hconcat : Trimmed ([] ++ [d]) := trimmed_concat.mpr (ne_zero_of_toNat h)
  exact hconcat

theorem holds_fits {ds : List Digit} {n : Nat} (h : Holds (some ds) n) : 4 * ds.length ≤ maxSize := by
  obtain ⟨hn, -, hv, hfits⟩ := h
  rw [fits_iff hn, hv]
  exact hfits

theorem ecmaBigUintMulDigit_ok {result : Option (List Digit)} {n : Nat} {mul add : Digit} (hresult : Holds result n)
    (hmul : 1 < mul.toNat) (hadd : add.toNat < mul.toNat) (hfirst : result = none → 0 < add.toNat)
    (hfits : Fits (n * mul.toNat + add.toNat)) :
    ∃ ds, ecmaBigUintMulDigit result mul add = .ok ds ∧ Holds (some ds) (n * mul.toNat + add.toNat) := by
  cases result with
  | none =>
    have hzero : n = 0 := hresult
    have hpos := hfirst rfl
    have h1 : 1#32 < mul := by
      rw [BitVec.lt_def]
      exact hmul
    have h0 : 0#32 < add := by
      rw [BitVec.lt_def]
      exact hpos
    refine ⟨[add], ?_, ?_⟩
    · simp only [ecmaBigUintMulDigit, jjsAssert_ok h1, jjsAssert_ok (BitVec.lt_def.mpr hadd), jjsAssert_ok h0, ok_bind]
      rfl
    · refine ⟨trimmed_singleton hpos, by simp, ?_, hfits⟩
      rw [hzero]
      simp
  | some value =>
    have hfit := holds_fits hresult
    obtain ⟨hn, hne, hv, -⟩ := hresult
    obtain ⟨ds, h1, h2, h3, h4⟩ := ecmaBigUintMulDigit_some hn hne hfit hmul hadd
    rw [hv] at h3
    refine ⟨ds, ?_, h1, h2, h3, hfits⟩
    rw [h4, boxed_ok ((fits_iff h1).mpr (by rw [h3]; exact hfits))]

theorem ecmaBigUintMulDigit_null {result : Option (List Digit)} {n : Nat} {mul add : Digit} (hresult : Holds result n)
    (hmul : 1 < mul.toNat) (hadd : add.toNat < mul.toNat) (hfits : ¬ Fits (n * mul.toNat + add.toNat)) :
    ecmaBigUintMulDigit result mul add = .error .null := by
  cases result with
  | none =>
    have hzero : n = 0 := hresult
    rw [hzero, Nat.zero_mul, Nat.zero_add] at hfits
    have hone : val [add] = add.toNat := by simp
    have hsmall : Fits add.toNat := by
      cases Nat.eq_zero_or_pos add.toNat with
      | inl h0 =>
        rw [h0]
        exact Nat.pow_pos (by decide)
      | inr hpos =>
        rw [← hone]
        exact (fits_iff (trimmed_singleton hpos)).mp (show 4 * 1 ≤ maxSize by decide)
    exact absurd hsmall hfits
  | some value =>
    have hfit := holds_fits hresult
    obtain ⟨hn, hne, hv, -⟩ := hresult
    obtain ⟨ds, h1, h2, h3, h4⟩ := ecmaBigUintMulDigit_some hn hne hfit hmul hadd
    rw [hv] at h3
    have hbig : ¬ 4 * ds.length ≤ maxSize := by
      rw [fits_iff h1, h3]
      exact hfits
    rw [h4, boxed, if_pos (Nat.lt_of_not_le hbig)]

/-! ## The loop -/

theorem le_textValue {radix : Digit} (hradix : 1 < radix.toNat) (n : Nat) (ds : List Byte) : n ≤ textValue radix n ds := by
  induction ds generalizing n with
  | nil => exact Nat.le_refl n
  | cons c ds ih =>
    have hstep : n ≤ n * radix.toNat := Nat.le_mul_of_pos_right _ (by omega)
    exact Nat.le_trans (Nat.le_trans hstep (Nat.le_add_right _ _)) (ih _)

theorem Fits.of_le {n m : Nat} (h : Fits m) (hle : n ≤ m) : Fits n := Nat.lt_of_le_of_lt hle h

theorem charDigit_eq (c : Byte) : (charDigit c).map BitVec.toNat = Ecma404.hexDigit c := by
  have key : ∀ c : Byte, (charDigit c).map BitVec.toNat = Ecma404.hexDigit c := by decide +kernel
  exact key c

/-- One digit of the text. -/
theorem parseLoop_digit {radix : Digit} {c : Byte} (hc : IsDigitOf radix c) (rest : List Byte)
    (result : Option (List Digit)) : ∃ d : Digit, d.toNat = charValue c ∧ d.toNat < radix.toNat ∧
      parseLoop radix (c :: rest) result =
        ecmaBigUintMulDigit result radix d >>= fun result => parseLoop radix rest (some result) := by
  obtain ⟨n, hn, hlt⟩ := hc
  have hdigit := charDigit_eq c
  rw [hn, Option.map_eq_some_iff] at hdigit
  obtain ⟨d, hd, hdn⟩ := hdigit
  refine ⟨d, ?_, by rw [hdn]; exact hlt, ?_⟩
  · rw [charValue, hn]
    exact hdn
  · rw [parseLoop, hd]
    dsimp only
    rw [if_neg (by rw [BitVec.not_le, BitVec.lt_def, hdn]; exact hlt)]

theorem parseLoop_digits {radix : Digit} (hradix : 1 < radix.toNat) {ds : List Byte} (hds : ∀ c ∈ ds, IsDigitOf radix c)
    (u : List Byte) {result : Option (List Digit)} {n : Nat} (hresult : Holds result n)
    (hfirst : result = none → ∀ c ∈ ds.head?, 0 < charValue c) (hfits : Fits (textValue radix n ds)) :
    ∃ result', parseLoop radix (ds ++ u) result = parseLoop radix u result' ∧ Holds result' (textValue radix n ds) ∧
      (result' = none ↔ result = none ∧ ds = []) := by
  induction ds generalizing result n with
  | nil => exact ⟨result, rfl, hresult, by simp⟩
  | cons c ds ih =>
    obtain ⟨d, hd, hlt, hstep⟩ := parseLoop_digit (hds c List.mem_cons_self) (ds ++ u) result
    have hvalue : textValue radix n (c :: ds) = textValue radix (n * radix.toNat + d.toNat) ds := by rw [hd]; rfl
    rw [hvalue] at hfits ⊢
    obtain ⟨es, hmul, hholds⟩ := ecmaBigUintMulDigit_ok hresult hradix hlt
      (fun hnone => by rw [hd]; exact hfirst hnone c rfl) (hfits.of_le (le_textValue hradix _ ds))
    obtain ⟨result', h1, h2, h3⟩ := ih (fun c hc => hds c (List.mem_cons_of_mem _ hc)) hholds (fun h => nomatch h) hfits
    refine ⟨result', ?_, h2, ?_⟩
    · rw [List.cons_append, hstep, hmul, ok_bind, h1]
    · rw [h3]
      simp

theorem parseLoop_too_long {radix : Digit} (hradix : 1 < radix.toNat) {ds : List Byte} (hds : ∀ c ∈ ds, IsDigitOf radix c)
    (u : List Byte) {result : Option (List Digit)} {n : Nat} (hresult : Holds result n)
    (hfirst : result = none → ∀ c ∈ ds.head?, 0 < charValue c) (hn : Fits n) (hfits : ¬ Fits (textValue radix n ds)) :
    parseLoop radix (ds ++ u) result = .error .null := by
  induction ds generalizing result n with
  | nil => exact absurd hn hfits
  | cons c ds ih =>
    obtain ⟨d, hd, hlt, hstep⟩ := parseLoop_digit (hds c List.mem_cons_self) (ds ++ u) result
    have hvalue : textValue radix n (c :: ds) = textValue radix (n * radix.toNat + d.toNat) ds := by rw [hd]; rfl
    rw [hvalue] at hfits
    rw [List.cons_append, hstep]
    by_cases hnext : Fits (n * radix.toNat + d.toNat)
    · obtain ⟨es, hmul, hholds⟩ := ecmaBigUintMulDigit_ok hresult hradix hlt
        (fun hnone => by rw [hd]; exact hfirst hnone c rfl) hnext
      rw [hmul, ok_bind]
      exact ih (fun c hc => hds c (List.mem_cons_of_mem _ hc)) hholds (fun h => nomatch h) hnext hfits
    · rw [ecmaBigUintMulDigit_null hresult hradix hlt hnext, error_bind]

/-! ## Characters -/

/-- A digit is an ASCII character and no white space. -/
theorem hexDigit_dark {c : Byte} (h : Ecma404.hexDigit c ≠ none) (s : List Byte) : StartsDark (c :: s) := by
  have key : ∀ c : Byte, Ecma404.hexDigit c ≠ none → 0x30 ≤ c.toNat ∧ c.toNat < 0x80 := by decide +kernel
  obtain ⟨hlow, hhigh⟩ := key c h
  exact startsDark_cons hhigh (by omega) s

/-- The letter of a radix prefix is one too. -/
theorem litCharToRadix_dark {c : Byte} (h : litCharToRadix c ≠ 10#32) (s : List Byte) : StartsDark (c :: s) := by
  have key : ∀ c : Byte, litCharToRadix c ≠ 10#32 → 0x30 ≤ c.toNat ∧ c.toNat < 0x80 := by decide +kernel
  obtain ⟨hlow, hhigh⟩ := key c h
  exact startsDark_cons hhigh (by omega) s

/-- White space that is not empty does not begin with anything else. -/
theorem White.not_dark {s : List Byte} (h : White s) (hne : s ≠ []) : ¬ StartsDark s := by
  cases h with
  | nil => exact absurd rfl hne
  | @cons c w u hread hu hw =>
    intro hdark
    cases hdark with
    | inl hnil => exact hne hnil
    | inr hdark =>
      obtain ⟨n, v, hread', hv⟩ := hdark
      rw [litReadCodeUnitFromCesu8_extend hread] at hread'
      cases hread'
      exact hv hu

theorem StartsDark.not_broken {s : List Byte} (h : StartsDark s) : ¬ StartsBroken s := by
  intro hbroken
  cases h with
  | inl hnil => exact hbroken.1 hnil
  | inr hread =>
    obtain ⟨n, u, hread, -⟩ := hread
    rw [hbroken.2] at hread
    cases hread

/-- The first character of white space, or of a text behind it that cannot be read, is no digit and no prefix. -/
theorem white_head {w m : List Byte} (hw : White w) (hm : m = [] ∨ StartsBroken m) {c : Byte} (hc : c ∈ (w ++ m).head?) :
    Ecma404.hexDigit c = none ∧ litCharToRadix c = 10#32 := by
  have hlight : ¬ ∀ s, StartsDark (c :: s) := by
    intro hdark
    cases w with
    | nil =>
      cases hm with
      | inl hnil =>
        rw [hnil] at hc
        cases hc
      | inr hbroken =>
        cases m with
        | nil => cases hc
        | cons d m =>
          cases hc
          exact StartsDark.not_broken (hdark m) hbroken
    | cons d w =>
      cases hc
      exact White.not_dark hw (by simp) (hdark w)
  constructor
  · by_contra h
    exact hlight (hexDigit_dark h)
  · by_contra h
    exact hlight (litCharToRadix_dark h)

/-! ## The end of the digits -/

theorem charDigit_of_not_digit {radix : Digit} {c : Byte} (hc : ¬ IsDigitOf radix c) :
    charDigit c = none ∨ ∃ d, charDigit c = some d ∧ radix ≤ d := by
  cases hd : charDigit c with
  | none => exact Or.inl rfl
  | some d =>
    refine Or.inr ⟨d, rfl, ?_⟩
    have hdigit := charDigit_eq c
    rw [hd] at hdigit
    rw [BitVec.le_def]
    by_contra hlt
    exact hc ⟨d.toNat, hdigit.symm, by omega⟩

theorem charDigit_white {w m : List Byte} (hw : White w) (hm : m = [] ∨ StartsBroken m) {c : Byte}
    (hc : c ∈ (w ++ m).head?) : charDigit c = none := by
  have hdigit := charDigit_eq c
  rw [(white_head hw hm hc).1] at hdigit
  exact Option.map_eq_none_iff.mp hdigit

theorem parseLoop_white {w : List Byte} (hw : White w) (radix : Digit) (result : Option (List Digit)) :
    parseLoop radix w result = .ok result := by
  cases w with
  | nil => rfl
  | cons c w =>
    have hc := charDigit_white hw (m := []) (Or.inl rfl) (c := c) rfl
    rw [parseLoop, hc]
    dsimp only
    rw [ecmaStringTrimFront_white hw]

theorem parseLoop_broken {w m : List Byte} (hw : White w) (hm : StartsBroken m) (radix : Digit)
    (result : Option (List Digit)) : parseLoop radix (w ++ m) result = .error .assertion := by
  cases heq : w ++ m with
  | nil => exact absurd (List.append_eq_nil_iff.mp heq).2 hm.1
  | cons c rest =>
    have hc := charDigit_white hw (Or.inr hm) (c := c) (by rw [heq]; rfl)
    rw [parseLoop, hc]
    dsimp only
    rw [← heq, ecmaStringTrimFront_broken hw hm]

theorem parseLoop_dark {w m : List Byte} (hw : White w) (hm : StartsDark m) (hne : m ≠ []) {radix : Digit}
    (hdigit : ∀ c ∈ (w ++ m).head?, ¬ IsDigitOf radix c) (result : Option (List Digit)) :
    parseLoop radix (w ++ m) result = .error .syntaxError := by
  cases heq : w ++ m with
  | nil => exact absurd (List.append_eq_nil_iff.mp heq).2 hne
  | cons c rest =>
    rw [parseLoop]
    cases charDigit_of_not_digit (hdigit c (by rw [heq]; rfl)) with
    | inl hnone =>
      rw [hnone]
      dsimp only
      rw [← heq, ecmaStringTrimFront_dark hw hm]
      cases m with
      | nil => exact absurd rfl hne
      | cons d m => rfl
    | inr hsome =>
      obtain ⟨d, hd, hle⟩ := hsome
      rw [hd]
      dsimp only
      rw [if_pos hle]

/-! ## Zeros -/

theorem isDigitOf_zero {radix : Digit} (hradix : 1 < radix.toNat) : IsDigitOf radix 0x30#8 := ⟨0, rfl, by omega⟩

theorem charValue_pos {radix : Digit} {c : Byte} (h : IsDigitOf radix c) (hne : c ≠ 0x30#8) : 0 < charValue c := by
  have key : ∀ c : Byte, Ecma404.hexDigit c ≠ none → c ≠ 0x30#8 → 0 < (Ecma404.hexDigit c).getD 0 := by decide +kernel
  obtain ⟨d, hd, -⟩ := h
  exact key c (by rw [hd]; simp) hne

theorem textValue_append (radix : Digit) (n : Nat) (as bs : List Byte) :
    textValue radix n (as ++ bs) = textValue radix (textValue radix n as) bs := List.foldl_append

theorem textValue_zeros (radix : Digit) {z : List Byte} (hz : ∀ c ∈ z, c = 0x30#8) : textValue radix 0 z = 0 := by
  induction z with
  | nil => rfl
  | cons c z ih =>
    have hc : charValue c = 0 := by
      rw [hz c List.mem_cons_self]
      rfl
    have hstep : textValue radix 0 (c :: z) = textValue radix (0 * radix.toNat + charValue c) z := rfl
    rw [hstep, hc, Nat.zero_mul]
    exact ih fun d hd => hz d (List.mem_cons_of_mem _ hd)

/-- Digits are zeros and then digits that do not begin with a zero. -/
theorem exists_zeros (ds : List Byte) : ∃ z es, ds = z ++ es ∧ (∀ c ∈ z, c = 0x30#8) ∧ ∀ c ∈ es.head?, c ≠ 0x30#8 := by
  induction ds with
  | nil => exact ⟨[], [], rfl, fun c hc => (nomatch hc), fun c hc => (nomatch hc)⟩
  | cons d ds ih =>
    by_cases hd : d = 0x30#8
    · obtain ⟨z, es, heq, hz, hes⟩ := ih
      refine ⟨d :: z, es, by rw [heq, List.cons_append], ?_, hes⟩
      intro c hc
      cases hc with
      | head => exact hd
      | tail _ hc => exact hz c hc
    · refine ⟨[], d :: ds, rfl, fun c hc => (nomatch hc), ?_⟩
      intro c hc
      cases hc
      exact hd

theorem dropWhile_zeros {z u : List Byte} (hz : ∀ c ∈ z, c = 0x30#8) (hu : ∀ c ∈ u.head?, c ≠ 0x30#8) :
    (z ++ u).dropWhile (· == 0x30#8) = u := by
  induction z with
  | nil =>
    cases u with
    | nil => rfl
    | cons c u => exact List.dropWhile_cons_of_neg (by simpa using hu c rfl)
  | cons c z ih =>
    rw [List.cons_append, List.dropWhile_cons_of_pos (by simpa using hz c List.mem_cons_self)]
    exact ih fun d hd => hz d (List.mem_cons_of_mem _ hd)

/-! ## The digits and what is behind them -/

section

variable {radix : Digit} (hradix : 1 < radix.toNat) (sign : Bool) {ds : List Byte} (hds : ∀ c ∈ ds, IsDigitOf radix c)

include hradix hds

/-- The digits are read up to their end. The result pointer is still null there when all of them were zeros. -/
theorem parseDigits_digits {u : List Byte} (hu : ∀ c ∈ u.head?, ¬ IsDigitOf radix c) (hfits : Fits (textValue radix 0 ds)) :
    ∃ result, Holds result (textValue radix 0 ds) ∧ (result = none ↔ ∀ c ∈ ds, c = 0x30#8) ∧
      parseDigits radix sign (ds ++ u) =
        if u = [] ∧ result = none then .ok Block.zero else parseLoop radix u result >>= parsedValue sign := by
  obtain ⟨z, es, heq, hz, hes⟩ := exists_zeros ds
  have hdigits : ∀ c ∈ es, IsDigitOf radix c := fun c hc => hds c (by rw [heq]; exact List.mem_append_right _ hc)
  have hvalue : textValue radix 0 ds = textValue radix 0 es := by rw [heq, textValue_append, textValue_zeros radix hz]
  rw [hvalue] at hfits ⊢
  have hfirst : (none : Option (List Digit)) = none → ∀ c ∈ es.head?, 0 < charValue c := by
    intro _ c hc
    exact charValue_pos (hdigits c (List.mem_of_mem_head? hc)) (hes c hc)
  obtain ⟨result, hloop, hholds, hnone⟩ := parseLoop_digits hradix hdigits u (show Holds none 0 from rfl) hfirst hfits
  have hall : result = none ↔ ∀ c ∈ ds, c = 0x30#8 := by
    rw [hnone]
    constructor
    · intro h c hc
      rw [heq, h.2, List.append_nil] at hc
      exact hz c hc
    · intro h
      refine ⟨rfl, ?_⟩
      cases es with
      | nil => rfl
      | cons c es => exact absurd (h c (by rw [heq]; simp)) (hes c rfl)
  refine ⟨result, hholds, hall, ?_⟩
  have hdrop : (ds ++ u).dropWhile (· == 0x30#8) = es ++ u := by
    rw [heq, List.append_assoc]
    refine dropWhile_zeros hz ?_
    cases es with
    | nil =>
      intro c hc h0
      rw [h0] at hc
      exact hu _ hc (isDigitOf_zero hradix)
    | cons d es => exact hes
  have hend : es ++ u = [] ↔ u = [] ∧ result = none := by
    rw [List.append_eq_nil_iff, hnone]
    simp only [true_and, and_comm]
  unfold parseDigits
  dsimp only
  rw [hdrop, hloop]
  by_cases hnil : u = [] ∧ result = none
  · rw [if_pos hnil, if_pos (hend.mpr hnil)]
  · rw [if_neg hnil, if_neg (mt hend.mp hnil)]

theorem parseDigits_too_long (u : List Byte) (hfits : ¬ Fits (textValue radix 0 ds)) :
    parseDigits radix sign (ds ++ u) = .error .null := by
  obtain ⟨z, es, heq, hz, hes⟩ := exists_zeros ds
  have hdigits : ∀ c ∈ es, IsDigitOf radix c := fun c hc => hds c (by rw [heq]; exact List.mem_append_right _ hc)
  have hvalue : textValue radix 0 ds = textValue radix 0 es := by rw [heq, textValue_append, textValue_zeros radix hz]
  rw [hvalue] at hfits
  have hfirst : (none : Option (List Digit)) = none → ∀ c ∈ es.head?, 0 < charValue c := by
    intro _ c hc
    exact charValue_pos (hdigits c (List.mem_of_mem_head? hc)) (hes c hc)
  have hzero : Fits 0 := Nat.pow_pos (by decide)
  have hloop := parseLoop_too_long hradix hdigits u (show Holds none 0 from rfl) hfirst hzero hfits
  have hne : es ≠ [] := by
    intro hnil
    rw [hnil] at hfits
    exact hfits hzero
  have hdrop : (ds ++ u).dropWhile (· == 0x30#8) = es ++ u := by
    rw [heq, List.append_assoc]
    refine dropWhile_zeros hz ?_
    cases es with
    | nil => exact absurd rfl hne
    | cons d es => exact hes
  unfold parseDigits
  dsimp only
  rw [hdrop, if_neg (by simp [hne]), hloop, error_bind]

theorem parseDigits_broken {w m : List Byte} (hw : White w) (hm : StartsBroken m) (hfits : Fits (textValue radix 0 ds)) :
    parseDigits radix sign (ds ++ (w ++ m)) = .error .assertion := by
  have hu : ∀ c ∈ (w ++ m).head?, ¬ IsDigitOf radix c := by
    intro c hc h
    obtain ⟨d, hd, -⟩ := h
    rw [(white_head hw (Or.inr hm) hc).1] at hd
    cases hd
  obtain ⟨result, -, -, heq⟩ := parseDigits_digits hradix sign hds hu hfits
  have hne : w ++ m ≠ [] := fun hnil => hm.1 (List.append_eq_nil_iff.mp hnil).2
  rw [heq, if_neg fun h => hne h.1, parseLoop_broken hw hm, error_bind]

theorem parseDigits_dark {w m : List Byte} (hw : White w) (hm : StartsDark m) (hne : m ≠ [])
    (hu : ∀ c ∈ (w ++ m).head?, ¬ IsDigitOf radix c) (hfits : Fits (textValue radix 0 ds)) :
    parseDigits radix sign (ds ++ (w ++ m)) = .error .syntaxError := by
  obtain ⟨result, -, -, heq⟩ := parseDigits_digits hradix sign hds hu hfits
  have hne' : w ++ m ≠ [] := fun hnil => hne (List.append_eq_nil_iff.mp hnil).2
  rw [heq, if_neg fun h => hne' h.1, parseLoop_dark hw hm hne hu, error_bind]

omit hradix hds in
theorem not_digit_of_white {w : List Byte} (hw : White w) : ∀ c ∈ w.head?, ¬ IsDigitOf radix c := by
  intro c hc h
  obtain ⟨d, hd, -⟩ := h
  rw [← List.append_nil w] at hc
  rw [(white_head hw (Or.inl rfl) hc).1] at hd
  cases hd

/-- Zeros before white space are taken for a failed allocation. -/
theorem parseDigits_zeros {w : List Byte} (hw : White w) (hne : w ≠ []) (hzeros : ∀ c ∈ ds, c = 0x30#8) :
    parseDigits radix sign (ds ++ w) = .error .null := by
  have hfits : Fits (textValue radix 0 ds) := by
    rw [textValue_zeros radix hzeros]
    exact Nat.pow_pos (by decide)
  obtain ⟨result, -, hnone, heq⟩ := parseDigits_digits hradix sign hds (not_digit_of_white hw) hfits
  rw [heq, if_neg fun h => hne h.1, parseLoop_white hw, ok_bind, hnone.mpr hzeros]
  rfl

/-- Any other digits before white space give their number. -/
theorem parseDigits_white {w : List Byte} (hw : White w) (hzeros : w = [] ∨ ¬ ∀ c ∈ ds, c = 0x30#8)
    (hfits : Fits (textValue radix 0 ds)) : ∃ v : Value, parseDigits radix sign (ds ++ w) = .ok v.toBlock ∧
      v.toInt = if sign then -(textValue radix 0 ds : Int) else textValue radix 0 ds := by
  obtain ⟨result, hholds, hnone, heq⟩ := parseDigits_digits hradix sign hds (not_digit_of_white hw) hfits
  rw [heq, parseLoop_white hw, ok_bind]
  cases result with
  | none =>
    have hall := hnone.mp rfl
    refine ⟨⟨Block.zero, trimmed_nil, fun _ => rfl, Nat.zero_le _⟩, if_pos ⟨hzeros.resolve_right (not_not_intro hall), rfl⟩, ?_⟩
    rw [textValue_zeros radix hall]
    simp [Value.toInt, Block.toInt, Block.zero]
  | some es =>
    have hfit := holds_fits hholds
    obtain ⟨hn, hne, hv, -⟩ := hholds
    refine ⟨Value.ofDigits sign es ⟨hne, hn, hfit⟩, ?_, ?_⟩
    · rw [if_neg (by simp)]
      rfl
    · rw [← hv]
      rfl

end

end BigInt
end JJS
