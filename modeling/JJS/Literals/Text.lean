import JJS.Literals.Pool

/-!
# JJS.Literals.Text

The characters of the special forms. A number string has the numeral of its number, and a magic string with a
direct value the entry of its table. An external magic string whose number is too large for a direct value has a
descriptor (`LateMagic`), and `ecma_string_get_chars` subtracts the wrong way round there: its characters are
always the empty text (`late_chars`).
-/

namespace JJS
namespace Literals

open Utf8 Lit Strings
open Hashset (litUtf8StringCalcHash)

/-! ## Numerals -/

theorem numeral_of_lt {n : Nat} (h : n < 10) : numeral n = [digitByte n] := by
  rw [numeral]
  split
  · rename_i hzero
    rw [hzero]
  · rename_i hne
    rw [Nat.digits_of_lt 10 n hne h]
    rfl

theorem numeral_div {n : Nat} (h : n / 10 ≠ 0) : numeral n = numeral (n / 10) ++ [digitByte (n % 10)] := by
  have hne : n ≠ 0 := by omega
  rw [numeral, if_neg hne, numeral, if_neg h, Nat.digits_def' (by decide) (by omega), List.reverse_cons,
    List.map_append, List.map_singleton]

theorem uint32Loop_eq {steps : Nat} : ∀ {value : Nat} (out : List Byte), value < 10 ^ (steps + 1) →
    uint32Loop (steps + 1) value out = numeral value ++ out := by
  induction steps with
  | zero =>
    intro value out hlt
    have hlt : value < 10 := hlt
    rw [uint32Loop, if_pos (by omega), numeral_of_lt hlt, Nat.mod_eq_of_lt hlt]
    rfl
  | succ steps ih =>
    intro value out hlt
    rw [uint32Loop]
    split
    · rename_i hzero
      have hlt : value < 10 := by omega
      rw [numeral_of_lt hlt, Nat.mod_eq_of_lt hlt]
      rfl
    · rename_i hne
      have hdiv : value / 10 < 10 ^ (steps + 1) := by
        rw [Nat.pow_succ] at hlt
        exact Nat.div_lt_of_lt_mul (by rw [Nat.mul_comm]; exact hlt)
      rw [ih _ hdiv, numeral_div hne, List.append_assoc]
      rfl

theorem uint32ToUtf8String_eq {n : Nat} (h : n < 2 ^ 32) : ecmaUint32ToUtf8String n = numeral n := by
  rw [ecmaUint32ToUtf8String, maxCharsInStringifiedUint32, uint32Loop_eq [] (Nat.lt_trans h (by decide)), List.append_nil]

theorem length_numeral {n size : Nat} (hlow : 10 ^ size ≤ n) (hhigh : n < 10 ^ (size + 1)) :
    (numeral n).length = size + 1 := by
  have hne : n ≠ 0 := by
    have hpos : 0 < 10 ^ size := Nat.pow_pos (by decide)
    omega
  have hle := (Nat.digits_length_le_iff (show 1 < 10 by decide) n).mpr hhigh
  have hge := (Nat.lt_digits_length_iff (show 1 < 10 by decide) n).mpr hlow
  rw [numeral, if_neg hne, List.length_map, List.length_reverse]
  omega

/-- The loop takes two digits in each round. -/
theorem uint32SizeLoop_eq {n k : Nat} (hk : k ≤ 4) (hlow : 100 ^ k ≤ n) (hhigh : n < 100 ^ (k + 1)) :
    uint32SizeLoop n 5 1 100 1 = (100 ^ k, 2 * k + 1) := by
  interval_cases k <;> simp only [uint32SizeLoop] <;> split_ifs <;> first | rfl | omega

theorem uint32Size_eq {n : Nat} (h : n < 2 ^ 32) : ecmaStringGetUint32Size n = (numeral n).length := by
  by_cases hzero : n = 0
  · rw [hzero]
    rfl
  · have hlow : 100 ^ Nat.log 100 n ≤ n := Nat.pow_log_le_self 100 hzero
    have hhigh : n < 100 ^ (Nat.log 100 n + 1) := Nat.lt_pow_succ_log_self (by decide) n
    have hk : Nat.log 100 n ≤ 4 := by
      have hlog := Nat.log_lt_of_lt_pow hzero (show n < 100 ^ 5 from Nat.lt_trans h (by decide))
      omega
    rw [ecmaStringGetUint32Size, uint32SizeLoop_eq hk hlow hhigh]
    generalize Nat.log 100 n = k at hk hlow hhigh
    have hfits : 100 ^ k * 10 < 2 ^ 32 := by
      have hle : 100 ^ k ≤ 100 ^ 4 := Nat.pow_le_pow_right (by decide) hk
      omega
    have hpow : 100 ^ k = 10 ^ (2 * k) := Nat.pow_mul 10 2 k |>.symm
    have hnext : 100 ^ (k + 1) = 10 ^ (2 * k + 2) := Nat.pow_mul 10 2 (k + 1) |>.symm
    dsimp only
    rw [Nat.mod_eq_of_lt hfits]
    rw [hpow] at hlow ⊢
    rw [hnext] at hhigh
    split
    · rename_i hten
      exact (length_numeral hten hhigh).symm
    · rename_i hten
      exact (length_numeral hlow (Nat.lt_of_not_le hten)).symm

/-! ## Special forms -/

variable (context : Context)

/-- An external magic string whose number is too large for a direct value. -/
structure LateMagic (s : List Byte) : Prop where
  not_magic : s ∉ context.magicStrings
  not_number : ∀ n < 2 ^ 32, s ≠ numeral n
  late : ∃ k < context.exArray.length, litGetMagicStringExUtf8 context k = s ∧
    directStringMaxImm context.cpointer32Bit < k + context.magicStringCount

/-- Which special form is found for a text. -/
inductive Form (address : Nat) (s : List Byte) : EcmaString → Prop where
  | magic {id : Nat} : id < context.magicStrings.length → litGetMagicStringUtf8 context id = s →
      Form address s (ecmaGetMagicString id)
  | number {n : BitVec 32} : s = numeral n.toNat → Form address s (ecmaNewEcmaStringFromUint32 context address n)
  | external {k : Nat} : s ∉ context.magicStrings → (∀ n < 2 ^ 32, s ≠ numeral n) → k < context.exArray.length →
      litGetMagicStringExUtf8 context k = s → Form address s (ecmaNewEcmaStringFromMagicStringExId context address k)

variable {context} {address : Nat} {s : List Byte} {value : EcmaString}

theorem find_form (h : ecmaFindSpecialString context address s = some value) : Form context address s value := by
  rw [ecmaFindSpecialString] at h
  dsimp only at h
  by_cases hmagic : litIsUtf8StringMagic context s ≠ context.magicStringCount
  · rw [if_pos hmagic] at h
    cases h
    obtain ⟨hlt, heq⟩ := litIsUtf8StringMagic_sound context hmagic
    exact Form.magic hlt heq
  · rw [if_neg hmagic] at h
    have hnot : s ∉ context.magicStrings := fun hin => hmagic ((litIsUtf8StringMagic_ne_iff context).mpr hin)
    have hne : s ≠ [] := by
      intro hnil
      rw [hnil] at hnot
      exact hnot (List.mem_of_mem_head? context.magic_empty)
    split at h
    · rename_i index hindex
      cases h
      split at hindex
      · obtain ⟨heq, hlt⟩ := ecmaStringToArrayIndex_sound hne hindex
        refine Form.number ?_
        rw [BitVec.toNat_ofNat, Nat.mod_eq_of_lt hlt]
        exact heq
      · cases hindex
    · rename_i hindex
      split at h
      · rename_i hfound
        cases h
        refine Form.external hnot ?_ hfound.2 (litIsExUtf8StringMagic_sound context hfound.2)
        intro n hn heq
        rw [heq, if_pos (head_numeral n), ecmaStringToArrayIndex_numeral hn] at hindex
        cases hindex
      · cases h

/-- A form at another address: a direct value does not depend on it. -/
def moved (address : Nat) : EcmaString → EcmaString
  | .direct type value => .direct type value
  | .heap _ descriptor => .heap address descriptor

theorem find_moved (context : Context) (address address' : Nat) (s : List Byte) :
    ecmaFindSpecialString context address' s = (ecmaFindSpecialString context address s).map (moved address') := by
  rw [ecmaFindSpecialString, ecmaFindSpecialString]
  dsimp only
  split
  · rfl
  · split
    · rw [Option.map_some, ecmaNewEcmaStringFromUint32, ecmaNewEcmaStringFromUint32]
      split
      · rfl
      · rfl
    · split
      · rw [Option.map_some, ecmaNewEcmaStringFromMagicStringExId, ecmaNewEcmaStringFromMagicStringExId]
        split
        · rfl
        · rfl
      · rfl

/-- The characters of the string are `s`, however they are asked for. -/
def HasText (context : Context) (s : List Byte) (value : EcmaString) : Prop :=
  ∀ flags uint32Buffer, (ecmaStringGetChars context flags uint32Buffer value).chars = s ∧
    (ecmaStringGetChars context flags uint32Buffer value).size = s.length

theorem uint32Chars_text (flags : Flags) (uint32Buffer : Bool) (n : BitVec 32) :
    (uint32Chars flags uint32Buffer n.toNat).chars = numeral n.toNat ∧
      (uint32Chars flags uint32Buffer n.toNat).size = (numeral n.toNat).length :=
  ⟨uint32ToUtf8String_eq n.isLt, uint32Size_eq n.isLt⟩

theorem fromUint32_text (context : Context) (address : Nat) (n : BitVec 32) :
    HasText context (numeral n.toNat) (ecmaNewEcmaStringFromUint32 context address n) := by
  intro flags uint32Buffer
  rw [ecmaNewEcmaStringFromUint32]
  split
  · exact uint32Chars_text flags uint32Buffer n
  · exact uint32Chars_text flags uint32Buffer n

theorem Form.text (h : Form context address s value) (hlate : ¬ LateMagic context s) : HasText context s value := by
  cases h with
  | @magic id hid heq =>
    intro flags uint32Buffer
    have hcount := context.magic_count
    have hchars : ecmaStringGetChars context flags uint32Buffer (ecmaGetMagicString id) =
        finishChars { flags with rehashNeeded := true } (litGetMagicStringUtf8 context id)
          (litGetMagicStringUtf8 context id).length (litGetMagicStringUtf8 context id).length := if_neg (by omega)
    rw [hchars, heq]
    exact ⟨rfl, rfl⟩
  | number heq =>
    rw [heq]
    exact fromUint32_text context address _
  | @external k hnot hnumber hk heq =>
    intro flags uint32Buffer
    have hdirect : k + context.magicStringCount ≤ directStringMaxImm context.cpointer32Bit :=
      Nat.le_of_not_lt fun hlt => hlate ⟨hnot, hnumber, k, hk, heq, hlt⟩
    have hchars : ecmaStringGetChars context flags uint32Buffer (.direct .magic (k + context.magicStringCount)) =
        exChars context flags k := by
      rw [ecmaStringGetChars, if_pos (by omega), Nat.add_sub_cancel]
    rw [ecmaNewEcmaStringFromMagicStringExId]
    rw [if_pos hdirect, hchars, exChars, heq]
    exact ⟨rfl, rfl⟩

theorem late_ne_nil (h : LateMagic context s) : s ≠ [] := by
  intro hnil
  have hnot := h.not_magic
  rw [hnil] at hnot
  exact hnot (List.mem_of_mem_head? context.magic_empty)

/-- The form of a late external magic string has a descriptor. -/
theorem find_late (h : LateMagic context s) (address : Nat) :
    ∃ k, 0 < k ∧ k < context.exArray.length ∧ ecmaFindSpecialString context address s =
      some (.heap address (.magicStringEx (BitVec.ofNat 32 (k + context.magicStringCount)))) := by
  obtain ⟨k, hk, heq, hlate⟩ := h.late
  have hspecial : ecmaFindSpecialString context address s ≠ none := by
    intro hnone
    refine (find_eq_none_iff context address).mp hnone (Special.external ?_)
    rw [← heq]
    exact getD_mem hk
  obtain ⟨value, hvalue⟩ := Option.ne_none_iff_exists'.mp hspecial
  have hdirect := context.magic_direct
  cases find_form hvalue with
  | magic hid htext => exact absurd (by rw [← htext]; exact getD_mem hid) h.not_magic
  | number htext => exact absurd htext (h.not_number _ (BitVec.isLt _))
  | @external i _ _ hi htext =>
    have hsame : i = k := by
      rw [← litIsExUtf8StringMagic_complete context hi, htext, ← heq, litIsExUtf8StringMagic_complete context hk]
    rw [hsame] at hvalue
    refine ⟨k, by omega, hk, ?_⟩
    rw [hvalue, ecmaNewEcmaStringFromMagicStringExId]
    rw [if_neg (by omega)]

/-- The characters of a descriptor of an external magic string: the difference of 32 bits is beyond the table. -/
theorem late_chars {k : Nat} (hpos : 0 < k) (hk : k < context.exArray.length) (address : Nat) (flags : Flags)
    (uint32Buffer : Bool) :
    (ecmaStringGetChars context flags uint32Buffer
      (.heap address (.magicStringEx (BitVec.ofNat 32 (k + context.magicStringCount))))).chars = [] := by
  have hlimit := context.ex_limit
  have hdirect := context.magic_direct
  have hmax : directStringMaxImm context.cpointer32Bit ≤ 0x07ffffff := by
    rw [directStringMaxImm]
    split
    · exact Nat.le_refl _
    · decide
  have hid : (BitVec.ofNat 32 context.magicStringCount - BitVec.ofNat 32 (k + context.magicStringCount)).toNat =
      2 ^ 32 - k := by
    rw [BitVec.toNat_sub, BitVec.toNat_ofNat, BitVec.toNat_ofNat]
    omega
  show litGetMagicStringExUtf8 context _ = []
  rw [hid, litGetMagicStringExUtf8, List.getD_eq_getElem?_getD, List.getElem?_eq_none (by omega)]
  rfl

/-- A form with a descriptor is a number, when the text is no late magic string. -/
theorem find_heap {a : Nat} {d : Descriptor} (h : ecmaFindSpecialString context address s = some (.heap a d))
    (hlate : ¬ LateMagic context s) : ∃ n : BitVec 32, d = .uint32InDesc n ∧ s = numeral n.toNat := by
  generalize hvalue : EcmaString.heap a d = value at h
  cases find_form h with
  | magic _ _ => cases hvalue
  | @number n heq =>
    rw [ecmaNewEcmaStringFromUint32] at hvalue
    split at hvalue
    · cases hvalue
    · cases hvalue
      exact ⟨n, rfl, heq⟩
  | @external k hnot hnumber hk heq =>
    rw [ecmaNewEcmaStringFromMagicStringExId] at hvalue
    split at hvalue
    · cases hvalue
    · rename_i hdirect
      exact absurd ⟨hnot, hnumber, k, hk, heq, Nat.lt_of_not_le hdirect⟩ hlate

end Literals
end JJS
