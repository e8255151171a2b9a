import JJS.Strings.Basic
import Mathlib.Data.Nat.Digits.Lemmas
import Mathlib.Tactic.Ring

/-!
# JJS.Strings.Special

The texts that have a special form: the magic strings, the external magic strings and the decimal numerals
of the 32-bit numbers. `ecma_find_special_string` finds a special form just for these (`Special.find`,
`find_eq_none`).
-/

namespace JJS
namespace Strings

open Utf8 Lit

/-! ## Tables -/

theorem memcmp_self (s : List Byte) : memcmp s s = .eq := by
  induction s with
  | nil => rfl
  | cons a s ih => rw [memcmp, if_neg (BitVec.lt_irrefl a), if_neg (BitVec.lt_irrefl a), ih]

theorem memcmp_gt_of_lt {s t : List Byte} (h : memcmp s t = .lt) : memcmp t s = .gt := by
  induction s generalizing t with
  | nil => cases h
  | cons a s ih =>
    cases t with
    | nil => cases h
    | cons b t =>
      rw [memcmp] at h ⊢
      by_cases hab : a < b
      · rw [if_neg (fun hba => BitVec.lt_irrefl a (BitVec.lt_trans hab hba)), if_pos hab]
      · rw [if_neg hab] at h
        by_cases hba : b < a
        · rw [if_pos hba] at h
          cases h
        · rw [if_neg hba] at h
          rw [if_neg hba, if_neg hab]
          exact ih h

theorem eq_of_memcmp {s t : List Byte} (hlen : s.length = t.length) (h : memcmp s t = .eq) : s = t := by
  induction s generalizing t with
  | nil => exact (List.length_eq_zero_iff.mp hlen.symm).symm
  | cons a s ih =>
    cases t with
    | nil => cases hlen
    | cons b t =>
      rw [memcmp] at h
      by_cases hab : a < b
      · rw [if_pos hab] at h
        cases h
      · rw [if_neg hab] at h
        by_cases hba : b < a
        · rw [if_pos hba] at h
          cases h
        · rw [if_neg hba] at h
          have heq : a = b := BitVec.le_antisymm (BitVec.not_lt.mp hba) (BitVec.not_lt.mp hab)
          rw [heq, ih (Nat.succ.inj hlen) h]

/-- The strings of a sorted table before and after one of them. -/
theorem Sorted.before {table : List (List Byte)} (h : Sorted table) {i k : Nat} (hik : i < k) (hk : k < table.length) :
    (table.getD i []).length < (table.getD k []).length ∨
      (table.getD i []).length = (table.getD k []).length ∧ memcmp (table.getD i []) (table.getD k []) = .lt := by
  have hi : i < table.length := Nat.lt_trans hik hk
  rw [← List.getElem_eq_getD (h := hi) [], ← List.getElem_eq_getD (h := hk) []]
  exact List.pairwise_iff_getElem.mp h i k hi hk hik

theorem Sorted.length_le {table : List (List Byte)} (h : Sorted table) {i k : Nat} (hik : i ≤ k) (hk : k < table.length) :
    (table.getD i []).length ≤ (table.getD k []).length := by
  cases Nat.lt_or_eq_of_le hik with
  | inl hlt =>
    cases h.before hlt hk with
    | inl hless => exact Nat.le_of_lt hless
    | inr hsame => exact Nat.le_of_eq hsame.1
  | inr heq => rw [heq]

theorem exists_getD {table : List (List Byte)} {s : List Byte} (h : s ∈ table) :
    ∃ k, k < table.length ∧ table.getD k [] = s := by
  obtain ⟨k, hk, heq⟩ := List.mem_iff_getElem.mp h
  exact ⟨k, hk, by rw [← List.getElem_eq_getD (h := hk) [], heq]⟩

theorem getD_mem {table : List (List Byte)} {k : Nat} (hk : k < table.length) : table.getD k [] ∈ table := by
  rw [← List.getElem_eq_getD (h := hk) []]
  exact List.getElem_mem hk

/-- The strings that are shorter than `n` are the first ones of a sorted table. -/
theorem Sorted.lt_count_iff {table : List (List Byte)} (h : Sorted table) (n : Nat) {k : Nat} (hk : k < table.length) :
    k < (table.filter (·.length < n)).length ↔ (table.getD k []).length < n := by
  induction table generalizing k with
  | nil => cases hk
  | cons s table ih =>
    obtain ⟨hs, htable⟩ := List.pairwise_cons.mp h
    by_cases hlt : s.length < n
    · rw [List.filter_cons_of_pos (by simpa using hlt), List.length_cons]
      cases k with
      | zero => exact iff_of_true (Nat.succ_pos _) hlt
      | succ k =>
        rw [Nat.succ_lt_succ_iff, ih htable (Nat.lt_of_succ_lt_succ hk), List.getD_cons_succ]
    · have hnone : table.filter (·.length < n) = [] := by
        rw [List.filter_eq_nil_iff]
        intro t ht hlen
        have hlen : t.length < n := by simpa using hlen
        cases hs t ht with
        | inl hless => omega
        | inr hsame => omega
      rw [List.filter_cons_of_neg (by simpa using hlt), hnone]
      refine iff_of_false (Nat.not_lt_zero k) ?_
      have hfirst := h.length_le (Nat.zero_le k) hk
      rw [List.getD_cons_zero] at hfirst
      omega

section Magic

variable (context : Context)

theorem magic_ne_nil : context.magicStrings ≠ [] := by
  intro h
  have hempty := context.magic_empty
  rw [h] at hempty
  cases hempty

theorem magic_getD_zero : litGetMagicStringUtf8 context magicStringEmpty = [] := by
  rw [litGetMagicStringUtf8, magicStringEmpty, List.getD_eq_getElem?_getD, ← List.head?_eq_getElem?, context.magic_empty]
  rfl

theorem size_le_last {k : Nat} (hk : k < context.magicStrings.length) :
    (litGetMagicStringUtf8 context k).length ≤
      (litGetMagicStringUtf8 context (context.magicStrings.length - 1)).length :=
  context.magic_sorted.length_le (by omega) (by omega)

/-- What `lit_is_utf8_string_magic` returns: the place of the string in the table, or the number of all magic strings. -/
theorem litIsUtf8StringMagic_sound {s : List Byte} (h : litIsUtf8StringMagic context s ≠ context.magicStringCount) :
    litIsUtf8StringMagic context s < context.magicStrings.length ∧
      litGetMagicStringUtf8 context (litIsUtf8StringMagic context s) = s := by
  rw [litIsUtf8StringMagic] at h ⊢
  by_cases hlong : (litGetMagicStringUtf8 context (context.magicStrings.length - 1)).length < s.length
  · rw [if_pos hlong] at h
    exact absurd rfl h
  · rw [if_neg hlong] at h ⊢
    dsimp only at h ⊢
    cases hsearch : Bisect.search (fun middle => memcmp (litGetMagicStringUtf8 context middle) s)
        (litGetMagicStringSizeBlockStart context s.length) (litGetMagicStringSizeBlockStart context (s.length + 1)) with
    | none =>
      rw [hsearch] at h
      exact absurd rfl h
    | some m =>
      obtain ⟨hfirst, hlast, heq⟩ := Bisect.search_sound hsearch
      rw [Option.getD_some]
      have hm : m < context.magicStrings.length := Nat.lt_of_lt_of_le hlast (List.length_filter_le _ _)
      have hle := (context.magic_sorted.lt_count_iff (s.length + 1) hm).mp hlast
      have hge : ¬ (context.magicStrings.getD m []).length < s.length := fun hlt =>
        absurd ((context.magic_sorted.lt_count_iff s.length hm).mpr hlt) (Nat.not_lt.mpr hfirst)
      refine ⟨hm, eq_of_memcmp ?_ heq⟩
      show (context.magicStrings.getD m []).length = s.length
      omega

theorem litIsUtf8StringMagic_complete {k : Nat} (hk : k < context.magicStrings.length) :
    litIsUtf8StringMagic context (litGetMagicStringUtf8 context k) = k := by
  rw [litIsUtf8StringMagic, if_neg (Nat.not_lt.mpr (size_le_last context hk))]
  dsimp only
  have hcount := context.magic_sorted.lt_count_iff
  rw [Bisect.search_eq_some (k := k), Option.getD_some]
  · exact Nat.not_lt.mp fun hlt => absurd ((hcount _ hk).mp hlt) (Nat.lt_irrefl _)
  · exact (hcount _ hk).mpr (Nat.lt_succ_self _)
  · exact memcmp_self _
  · intro i hi hik
    have hlen : ¬ (context.magicStrings.getD i []).length < (litGetMagicStringUtf8 context k).length := fun hlt =>
      absurd ((hcount _ (Nat.lt_trans hik hk)).mpr hlt) (Nat.not_lt.mpr hi)
    cases context.magic_sorted.before hik hk with
    | inl hless => exact absurd hless hlen
    | inr hsame => exact hsame.2
  · intro i hki hi
    have hilt : i < context.magicStrings.length := Nat.lt_of_lt_of_le hi (List.length_filter_le _ _)
    have hlen := (hcount _ hilt).mp hi
    cases context.magic_sorted.before hki hilt with
    | inl hless =>
      have hless : (litGetMagicStringUtf8 context k).length < (context.magicStrings.getD i []).length := hless
      omega
    | inr hsame => exact memcmp_gt_of_lt hsame.2

theorem litIsUtf8StringMagic_ne_iff {s : List Byte} :
    litIsUtf8StringMagic context s ≠ context.magicStringCount ↔ s ∈ context.magicStrings := by
  constructor
  · intro h
    obtain ⟨hlt, heq⟩ := litIsUtf8StringMagic_sound context h
    have hmem := getD_mem hlt
    exact heq ▸ hmem
  · intro h
    obtain ⟨k, hk, heq⟩ := exists_getD h
    have hcomplete := litIsUtf8StringMagic_complete context hk
    have heq : litGetMagicStringUtf8 context k = s := heq
    rw [heq] at hcomplete
    have hcount := context.magic_count
    omega

theorem litIsExUtf8StringMagic_sound {s : List Byte}
    (h : litIsExUtf8StringMagic context s < litGetMagicStringExCount context) :
    litGetMagicStringExUtf8 context (litIsExUtf8StringMagic context s) = s := by
  rw [litIsExUtf8StringMagic] at h ⊢
  dsimp only at h ⊢
  split at h
  · exact absurd h (Nat.lt_irrefl _)
  · rename_i hlong
    rw [if_neg hlong]
    revert h
    generalize hsearch : Bisect.search _ 0 (litGetMagicStringExCount context) = found
    cases found with
    | none => exact fun h => absurd h (Nat.lt_irrefl _)
    | some m =>
      intro _
      obtain ⟨_, _, heq⟩ := Bisect.search_sound hsearch
      rw [Option.getD_some]
      by_cases hlen : s.length = (litGetMagicStringExUtf8 context m).length
      · rw [if_pos hlen] at heq
        exact eq_of_memcmp hlen.symm heq
      · rw [if_neg hlen] at heq
        split at heq
        · cases heq
        · cases heq

theorem litIsExUtf8StringMagic_complete {k : Nat} (hk : k < context.exArray.length) :
    litIsExUtf8StringMagic context (litGetMagicStringExUtf8 context k) = k := by
  have hlast : (litGetMagicStringExUtf8 context k).length ≤
      (litGetMagicStringExUtf8 context (litGetMagicStringExCount context - 1)).length :=
    context.ex_sorted.length_le (by rw [litGetMagicStringExCount]; omega) (by rw [litGetMagicStringExCount]; omega)
  have hcount : k < litGetMagicStringExCount context := hk
  rw [litIsExUtf8StringMagic]
  dsimp only
  rw [if_neg]
  · rw [Bisect.search_eq_some (k := k) (Nat.zero_le k) hcount, Option.getD_some]
    · rw [if_pos rfl, memcmp_self]
    · intro i _ hik
      have hbefore := context.ex_sorted.before hik hk
      cases hbefore with
      | inl hless =>
        have hless : (litGetMagicStringExUtf8 context i).length < (litGetMagicStringExUtf8 context k).length := hless
        rw [if_neg (by omega), if_pos hless]
      | inr hsame =>
        have hlen : (litGetMagicStringExUtf8 context k).length = (litGetMagicStringExUtf8 context i).length := hsame.1.symm
        rw [if_pos hlen]
        exact hsame.2
    · intro i hki hi
      have hafter := context.ex_sorted.before hki hi
      cases hafter with
      | inl hless =>
        have hless : (litGetMagicStringExUtf8 context k).length < (litGetMagicStringExUtf8 context i).length := hless
        rw [if_neg (by omega), if_neg (by omega)]
      | inr hsame =>
        have hlen : (litGetMagicStringExUtf8 context k).length = (litGetMagicStringExUtf8 context i).length := hsame.1
        rw [if_pos hlen]
        exact memcmp_gt_of_lt hsame.2
  · intro h
    cases h with
    | inl hzero =>
      rw [litGetMagicStringExCount] at hzero
      omega
    | inr hlt => omega

theorem litIsExUtf8StringMagic_lt_iff {s : List Byte} :
    litIsExUtf8StringMagic context s < litGetMagicStringExCount context ↔ s ∈ context.exArray := by
  constructor
  · intro h
    have hmem : litGetMagicStringExUtf8 context (litIsExUtf8StringMagic context s) ∈ context.exArray := getD_mem h
    rw [litIsExUtf8StringMagic_sound context h] at hmem
    exact hmem
  · intro h
    obtain ⟨k, hk, heq⟩ := exists_getD h
    have hcomplete := litIsExUtf8StringMagic_complete context hk
    have heq : litGetMagicStringExUtf8 context k = s := heq
    rw [heq] at hcomplete
    rw [hcomplete]
    exact hk

end Magic

/-! ## Numerals -/

/-- The character of a decimal digit. -/
def digitByte (d : Nat) : Byte := BitVec.ofNat 8 (d + 0x30)

/-- The decimal numeral of a number, without leading zeros. -/
def numeral (n : Nat) : List Byte := if n = 0 then [digitByte 0] else ((Nat.digits 10 n).reverse).map digitByte

theorem toNat_digitByte {d : Nat} (h : d < 10) : (digitByte d).toNat = d + 0x30 := by
  rw [digitByte, BitVec.toNat_ofNat]
  exact Nat.mod_eq_of_lt (by omega)

/-- A digit, as the tests of `ecma_string_to_array_index` see it. -/
theorem isDigit_iff (b : Byte) : ¬ (0x39#8 < b ∨ b < 0x30#8) ↔ ∃ d, d < 10 ∧ b = digitByte d := by
  rw [BitVec.lt_def, BitVec.lt_def]
  constructor
  · intro h
    have hlow : 0x30 ≤ b.toNat := by
      have := mt Or.inr h
      simpa using this
    have hhigh : b.toNat ≤ 0x39 := by
      have := mt Or.inl h
      simpa using this
    refine ⟨b.toNat - 0x30, by omega, ?_⟩
    apply BitVec.eq_of_toNat_eq
    rw [toNat_digitByte (by omega)]
    omega
  · intro h
    obtain ⟨d, hd, heq⟩ := h
    rw [heq, toNat_digitByte hd]
    simp
    omega

theorem arrayIndexLoop_digits (index : Nat) {ds : List Nat} (hds : ∀ d ∈ ds, d < 10) :
    arrayIndexLoop index (ds.map digitByte) = some (Nat.ofDigits 10 ds.reverse + 10 ^ ds.length * index) := by
  induction ds generalizing index with
  | nil => simp [arrayIndexLoop]
  | cons d ds ih =>
    have hd := hds d List.mem_cons_self
    have hdigit := (isDigit_iff (digitByte d)).mpr ⟨d, hd, rfl⟩
    rw [List.map_cons, arrayIndexLoop, if_neg hdigit, ih _ (fun x hx => hds x (List.mem_cons_of_mem d hx)),
      toNat_digitByte hd, List.reverse_cons, Nat.ofDigits_append, List.length_reverse, Nat.ofDigits_singleton,
      List.length_cons, Nat.add_sub_cancel]
    ring_nf

theorem arrayIndexLoop_some {index n : Nat} {s : List Byte} (h : arrayIndexLoop index s = some n) :
    ∃ ds : List Nat, (∀ d ∈ ds, d < 10) ∧ s = ds.map digitByte := by
  induction s generalizing index with
  | nil => exact ⟨[], fun d hd => absurd hd List.not_mem_nil, rfl⟩
  | cons b s ih =>
    rw [arrayIndexLoop] at h
    by_cases hb : 0x39#8 < b ∨ b < 0x30#8
    · rw [if_pos hb] at h
      cases h
    · rw [if_neg hb] at h
      obtain ⟨d, hd, heq⟩ := (isDigit_iff b).mp hb
      obtain ⟨ds, hds, hrest⟩ := ih h
      refine ⟨d :: ds, ?_, ?_⟩
      · intro x hx
        cases List.mem_cons.mp hx with
        | inl hxd => rw [hxd]; exact hd
        | inr hin => exact hds x hin
      · rw [heq, hrest, List.map_cons]

/-- A list of digits that does not begin with zero is the numeral of its value. -/
theorem numeral_of_digits {ds : List Nat} (hds : ∀ d ∈ ds, d < 10) (hne : ds ≠ []) (hfirst : ds.head hne ≠ 0) :
    numeral (Nat.ofDigits 10 ds.reverse) = ds.map digitByte := by
  have hdigits : Nat.digits 10 (Nat.ofDigits 10 ds.reverse) = ds.reverse := by
    apply Nat.digits_ofDigits 10 (by decide)
    · exact fun d hd => hds d (List.mem_reverse.mp hd)
    · intro hrev
      rw [List.getLast_reverse]
      exact hfirst
  have hpos : Nat.ofDigits 10 ds.reverse ≠ 0 := by
    intro hzero
    rw [hzero, Nat.digits_zero] at hdigits
    exact hne (List.reverse_eq_nil_iff.mp hdigits.symm)
  rw [numeral, if_neg hpos, hdigits, List.reverse_reverse]

/-- The digits of a positive number. -/
theorem exists_digits {n : Nat} (hn : n ≠ 0) : ∃ ds : List Nat, (∀ d ∈ ds, d < 10) ∧
    (∃ hne : ds ≠ [], ds.head hne ≠ 0) ∧ Nat.ofDigits 10 ds.reverse = n ∧ numeral n = ds.map digitByte ∧
    ds.length = (Nat.digits 10 n).length := by
  have hne : (Nat.digits 10 n).reverse ≠ [] := by
    intro h
    exact hn (Nat.digits_eq_nil_iff_eq_zero.mp (List.reverse_eq_nil_iff.mp h))
  refine ⟨(Nat.digits 10 n).reverse, ?_, ⟨hne, ?_⟩, ?_, ?_, List.length_reverse⟩
  · exact fun d hd => Nat.digits_lt_base (by decide) (List.mem_reverse.mp hd)
  · rw [List.head_reverse]
    exact Nat.getLast_digit_ne_zero 10 hn
  · rw [List.reverse_reverse, Nat.ofDigits_digits]
  · rw [numeral, if_neg hn]

theorem digitByte_inj {d e : Nat} (hd : d < 10) (he : e < 10) (h : digitByte d = digitByte e) : d = e := by
  have hsame := congrArg BitVec.toNat h
  rw [toNat_digitByte hd, toNat_digitByte he] at hsame
  omega

theorem head_ne_zero_iff {ds : List Nat} (hds : ∀ d ∈ ds, d < 10) (hne : ds ≠ []) :
    (ds.map digitByte).head? ≠ some 0x30#8 ↔ ds.head hne ≠ 0 := by
  cases ds with
  | nil => exact absurd rfl hne
  | cons d ds =>
    have hd := hds d List.mem_cons_self
    have hzero : (0x30#8 : Byte) = digitByte 0 := rfl
    rw [List.map_cons, List.head?_cons, List.head_cons, hzero]
    constructor
    · intro h heq
      exact h (by rw [heq])
    · intro h heq
      exact h (digitByte_inj hd (by decide) (Option.some.inj heq))

theorem length_digits_le {n : Nat} (h : n < 2 ^ 32) : (Nat.digits 10 n).length ≤ 10 :=
  (Nat.digits_length_le_iff (by decide) n).mpr (Nat.lt_trans h (by decide))

/-- The value of the first digits and of the last one. -/
theorem ofDigits_concat (ds : List Nat) (d : Nat) :
    Nat.ofDigits 10 (ds ++ [d]).reverse = Nat.ofDigits 10 ds.reverse * 10 + d := by
  rw [List.reverse_append, List.reverse_singleton, List.singleton_append, Nat.ofDigits_cons]
  ring

/-- The test for an overflow in the last digit. -/
theorem last_digit_iff {index d : Nat} (hd : d < 10) :
    ¬ (0x39#8 < digitByte d ∨ digitByte d < 0x30#8 ∨ uint32Max / 10 < index ∨
      (index = uint32Max / 10 ∧ 0x35#8 < digitByte d)) ↔ index * 10 + d < 2 ^ 32 := by
  have hmax : uint32Max / 10 = 429496729 := rfl
  have h9 : (0x39#8 : BitVec 8).toNat = 0x39 := rfl
  have h0 : (0x30#8 : BitVec 8).toNat = 0x30 := rfl
  have h5 : (0x35#8 : BitVec 8).toNat = 0x35 := rfl
  rw [BitVec.lt_def, BitVec.lt_def, BitVec.lt_def, toNat_digitByte hd, hmax, h9, h0, h5]
  omega

theorem ecmaStringToArrayIndex_sound {s : List Byte} {n : Nat} (hne : s ≠ [])
    (h : ecmaStringToArrayIndex s = some n) : s = numeral n ∧ n < 2 ^ 32 := by
  rw [ecmaStringToArrayIndex] at h
  by_cases hzero : s.head? = some 0x30#8
  · rw [if_pos hzero] at h
    by_cases hlen : s.length = 1
    · rw [if_pos hlen] at h
      cases h
      obtain ⟨b, hb⟩ := List.length_eq_one_iff.mp hlen
      rw [hb] at hzero ⊢
      cases Option.some.inj hzero
      exact ⟨rfl, by decide⟩
    · rw [if_neg hlen] at h
      cases h
  · rw [if_neg hzero] at h
    by_cases hlong : maxCharsInStringifiedUint32 < s.length
    · rw [if_pos hlong] at h
      cases h
    · rw [if_neg hlong] at h
      by_cases hshort : s.length < maxCharsInStringifiedUint32
      · rw [if_pos hshort] at h
        obtain ⟨ds, hds, heq⟩ := arrayIndexLoop_some h
        have hdsne : ds ≠ [] := by
          intro hnil
          rw [hnil] at heq
          exact hne heq
        rw [heq] at hzero
        rw [heq, arrayIndexLoop_digits 0 hds, Nat.mul_zero, Nat.add_zero] at h
        have hlength : ds.length < 10 := by
          rw [heq, List.length_map] at hshort
          exact hshort
        have hbound := Nat.ofDigits_lt_base_pow_length (b := 10) (l := ds.reverse) (by decide)
          (fun d hd => hds d (List.mem_reverse.mp hd))
        rw [List.length_reverse] at hbound
        have hpow : 10 ^ ds.length ≤ 10 ^ 9 := Nat.pow_le_pow_right (by decide) (by omega)
        rw [← Option.some.inj h, numeral_of_digits hds hdsne ((head_ne_zero_iff hds hdsne).mp hzero)]
        exact ⟨heq, by omega⟩
      · rw [if_neg hshort] at h
        have hlen : s.length = 10 := by
          rw [maxCharsInStringifiedUint32] at hlong hshort
          omega
        obtain ⟨index, hindex, h⟩ := Option.bind_eq_some_iff.mp h
        obtain ⟨ds, hds, heq⟩ := arrayIndexLoop_some hindex
        rw [maxCharsInStringifiedUint32] at heq hindex h
        have hlast : s = s.take 9 ++ [s.getD 9 0#8] := by
          have hdrop : s.drop 9 = [s.getD 9 0#8] := by
            rw [List.drop_eq_getElem_cons (by omega), List.drop_eq_nil_of_le (by omega),
              List.getElem_eq_getD (h := by omega) 0#8]
          rw [← hdrop, List.take_append_drop]
        dsimp only at h
        split at h
        · cases h
        · rename_i hguard
          obtain ⟨d, hd, hdigit⟩ := (isDigit_iff (s.getD 9 0#8)).mp (fun hor => hguard (by
            cases hor with
            | inl hhigh => exact Or.inl hhigh
            | inr hlow => exact Or.inr (Or.inl hlow)))
          rw [hdigit] at hguard h hlast
          have hrange := (last_digit_iff hd).mp hguard
          rw [heq, arrayIndexLoop_digits 0 hds, Nat.mul_zero, Nat.add_zero] at hindex
          have hvalue := Option.some.inj h
          rw [toNat_digitByte hd, Nat.add_sub_cancel] at hvalue
          have hall : ∀ x ∈ ds ++ [d], x < 10 := by
            intro x hx
            cases List.mem_append.mp hx with
            | inl hin => exact hds x hin
            | inr hin => rw [List.mem_singleton.mp hin]; exact hd
          have hs : s = (ds ++ [d]).map digitByte := by
            rw [List.map_append, List.map_singleton, ← heq]
            exact hlast
          have hallne : ds ++ [d] ≠ [] := List.append_ne_nil_of_right_ne_nil ds (List.cons_ne_nil d [])
          rw [hs] at hzero
          have hn : n = Nat.ofDigits 10 (ds ++ [d]).reverse := by
            rw [ofDigits_concat, Option.some.inj hindex, hvalue]
          rw [hn, numeral_of_digits hall hallne ((head_ne_zero_iff hall hallne).mp hzero)]
          refine ⟨hs, ?_⟩
          rw [← hn, ← hvalue]
          exact hrange

theorem ecmaStringToArrayIndex_numeral {n : Nat} (hn : n < 2 ^ 32) : ecmaStringToArrayIndex (numeral n) = some n := by
  by_cases hzero : n = 0
  · rw [hzero]
    rfl
  · obtain ⟨ds, hds, ⟨hne, hfirst⟩, hvalue, hnumeral, hlength⟩ := exists_digits hzero
    have hle := length_digits_le hn
    rw [ecmaStringToArrayIndex, hnumeral, if_neg ((head_ne_zero_iff hds hne).mpr hfirst), List.length_map,
      maxCharsInStringifiedUint32, if_neg (by omega)]
    by_cases hshort : ds.length < 10
    · rw [if_pos hshort, arrayIndexLoop_digits 0 hds, hvalue]
      rfl
    · rw [if_neg hshort]
      obtain ⟨init, d, hconcat⟩ := List.eq_nil_or_concat ds |>.resolve_left hne
      rw [List.concat_eq_append] at hconcat
      have hinit : init.length = 9 := by
        have := congrArg List.length hconcat
        rw [List.length_append, List.length_singleton] at this
        omega
      have hd : d < 10 := hds d (by rw [hconcat]; exact List.mem_append_right _ List.mem_cons_self)
      have hinits : ∀ x ∈ init, x < 10 := fun x hx => hds x (by rw [hconcat]; exact List.mem_append_left _ hx)
      have htake : (ds.map digitByte).take 9 = init.map digitByte := by
        rw [hconcat, List.map_append, List.take_left' (by rw [List.length_map, hinit])]
      have hget : (ds.map digitByte).getD 9 0#8 = digitByte d := by
        rw [hconcat, List.map_append, List.getD_eq_getElem?_getD, List.getElem?_append_right (by rw [List.length_map]; omega),
          List.length_map, hinit]
        rfl
      have hsum : Nat.ofDigits 10 init.reverse * 10 + d = n := by
        rw [← ofDigits_concat, ← hconcat, hvalue]
      have hrange := (@last_digit_iff (Nat.ofDigits 10 init.reverse) _ hd).mpr (by rw [hsum]; exact hn)
      show (arrayIndexLoop 0 ((ds.map digitByte).take 9)).bind _ = _
      rw [htake, arrayIndexLoop_digits 0 hinits, Nat.mul_zero, Nat.add_zero, Option.bind_some]
      dsimp only
      rw [hget, if_neg hrange, toNat_digitByte hd, Nat.add_sub_cancel, hsum]

theorem numeral_ne_nil (n : Nat) : numeral n ≠ [] := by
  rw [numeral]
  split
  · exact List.cons_ne_nil _ _
  · rename_i hn
    intro h
    rw [List.map_eq_nil_iff, List.reverse_eq_nil_iff] at h
    exact hn (Nat.digits_eq_nil_iff_eq_zero.mp h)

theorem head_numeral (n : Nat) : (numeral n).head?.any litCharIsDecimalDigit = true := by
  have hdigit : ∀ d, d < 10 → litCharIsDecimalDigit (digitByte d) = true := by decide
  by_cases hzero : n = 0
  · rw [hzero]
    rfl
  · obtain ⟨ds, hds, ⟨hne, _⟩, _, hnumeral, _⟩ := exists_digits hzero
    rw [hnumeral]
    cases ds with
    | nil => exact absurd rfl hne
    | cons d ds => exact hdigit d (hds d List.mem_cons_self)

/-! ## Special forms -/

/-- The texts with a special form. -/
inductive Special (context : Context) : List Byte → Prop where
  | magic {s : List Byte} : s ∈ context.magicStrings → Special context s
  | number {n : Nat} : n < 2 ^ 32 → Special context (numeral n)
  | external {s : List Byte} : s ∈ context.exArray → Special context s

/-- A string in a special form: a direct value, or a descriptor without characters. -/
def EcmaString.IsSpecial : EcmaString → Prop
  | .direct _ _ => True
  | .heap _ descriptor => ecmaCompareGetStringChars descriptor = none

section Find

variable (context : Context) (address : Nat)

theorem fromUint32_special (n : BitVec 32) : (ecmaNewEcmaStringFromUint32 context address n).IsSpecial := by
  rw [ecmaNewEcmaStringFromUint32]
  split
  · trivial
  · rfl

theorem fromMagicEx_special (id : Nat) : (ecmaNewEcmaStringFromMagicStringExId context address id).IsSpecial := by
  rw [ecmaNewEcmaStringFromMagicStringExId]
  split
  · trivial
  · rfl

theorem find_special {s : List Byte} {string : EcmaString} (h : ecmaFindSpecialString context address s = some string) :
    string.IsSpecial := by
  rw [ecmaFindSpecialString] at h
  dsimp only at h
  split at h
  · cases h
    trivial
  · split at h
    · cases h
      exact fromUint32_special context address _
    · split at h
      · cases h
        exact fromMagicEx_special context address _
      · cases h

/-- The direct magic string of the empty text is found for no other text. -/
theorem find_empty_iff {s : List Byte} :
    ecmaFindSpecialString context address s = some (ecmaGetMagicString magicStringEmpty) ↔ s = [] := by
  have hpos : 0 < context.magicStrings.length := List.length_pos_iff.mpr (magic_ne_nil context)
  have hcount := context.magic_count
  constructor
  · intro h
    rw [ecmaFindSpecialString] at h
    dsimp only at h
    by_cases hmagic : litIsUtf8StringMagic context s ≠ context.magicStringCount
    · rw [if_pos hmagic] at h
      have hid : litIsUtf8StringMagic context s = magicStringEmpty := by
        injection Option.some.inj h
      obtain ⟨_, heq⟩ := litIsUtf8StringMagic_sound context hmagic
      rw [hid, magic_getD_zero] at heq
      exact heq.symm
    · rw [if_neg hmagic] at h
      split at h
      · have h := Option.some.inj h
        rw [ecmaNewEcmaStringFromUint32, ecmaGetMagicString] at h
        split at h
        · cases h
        · cases h
      · split at h
        · have h := Option.some.inj h
          rw [ecmaNewEcmaStringFromMagicStringExId, ecmaGetMagicString] at h
          split at h
          · injection h with _ hid
            rw [magicStringEmpty] at hid
            omega
          · cases h
        · cases h
  · intro h
    have hid : litIsUtf8StringMagic context [] = magicStringEmpty := by
      have hcomplete := litIsUtf8StringMagic_complete context (k := magicStringEmpty) hpos
      rw [magic_getD_zero] at hcomplete
      exact hcomplete
    rw [h, ecmaFindSpecialString]
    dsimp only
    rw [hid, if_pos (by rw [magicStringEmpty]; omega)]

/-- A special form is found for the special texts only. -/
theorem find_eq_none_iff {s : List Byte} : ecmaFindSpecialString context address s = none ↔ ¬ Special context s := by
  rw [ecmaFindSpecialString]
  dsimp only
  by_cases hmagic : litIsUtf8StringMagic context s ≠ context.magicStringCount
  · rw [if_pos hmagic]
    refine iff_of_false (fun h => by cases h) (fun h => h ?_)
    exact Special.magic ((litIsUtf8StringMagic_ne_iff context).mp hmagic)
  · rw [if_neg hmagic]
    have hnotmagic : s ∉ context.magicStrings := fun h => hmagic ((litIsUtf8StringMagic_ne_iff context).mpr h)
    have hne : s ≠ [] := by
      intro hnil
      have hempty := (find_empty_iff context address (s := s)).mpr hnil
      rw [ecmaFindSpecialString] at hempty
      have hin : ([] : List Byte) ∈ context.magicStrings := List.mem_of_mem_head? context.magic_empty
      rw [← hnil] at hin
      exact hnotmagic hin
    split
    · rename_i index hindex
      refine iff_of_false (fun h => by cases h) (fun h => h ?_)
      split at hindex
      · obtain ⟨heq, hlt⟩ := ecmaStringToArrayIndex_sound hne hindex
        rw [heq]
        exact Special.number hlt
      · cases hindex
    · rename_i hindex
      have hex := litIsExUtf8StringMagic_lt_iff context (s := s)
      split
      · rename_i hfound
        refine iff_of_false (fun h => by cases h) (fun h => h ?_)
        exact Special.external (hex.mp hfound.2)
      · rename_i hfound
        refine iff_of_true rfl ?_
        intro hspecial
        cases hspecial with
        | magic hin => exact hnotmagic hin
        | number hn =>
          rw [if_pos (head_numeral _), ecmaStringToArrayIndex_numeral hn] at hindex
          cases hindex
        | external hin =>
          have hlt := hex.mpr hin
          exact hfound ⟨Nat.lt_of_le_of_lt (Nat.zero_le _) hlt, hlt⟩

end Find

end Strings
end JJS
