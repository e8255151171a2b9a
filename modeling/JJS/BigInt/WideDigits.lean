import JJS.BigInt.Value

/-!
# JJS.BigInt.WideDigits

BigInt values from and to digits of 64 bits (`ecma-bigint.c`). Two digits of a block make one wide digit, and the
block of a number whose most significant wide digit is half used has an odd number of digits.

From 0x10000 digits on, the number of digits is taken for the size of the block in bytes: such a block is too small,
unless its size is refused.
-/

namespace JJS
namespace BigInt

open Radix

/-- `ECMA_BIGINT_GET_BYTE_SIZE`. -/
def getByteSize (size : Nat) : Nat := (size + 4) / 8 * 8

/-- `ecma_bigint_create`, when the allocator finds room for the sizes in `allocates`. The assertions are not compiled
into a release build. -/
def ecmaBigintCreateBlock (ndebug : Bool) (allocates : Nat → Bool) (size : Nat) : Res Unit :=
  if ndebug = false ∧ ¬(0 < size ∧ size % 4 = 0) then .error .assertion
  else if maxSize < size then .error .null
  else if allocates (getByteSize size + 8) = false then .error .null
  else .ok ()

/-- Copy the digits to a block with room for `room` digits. -/
def writeDigits : Nat → List TwoDigits → Res (List Digit)
  | _, [] => .ok []
  | room, digit :: digits => do
    jjsAssert (2 ≤ room)
    let result ← writeDigits (room - 2) digits
    .ok (digit.setWidth 32 :: (digit >>> 32).setWidth 32 :: result)

/-- The size that is requested for digits without leading zeros. -/
def requestedSize (digits : List TwoDigits) : Nat :=
  let size := digits.length % 2 ^ 32
  let size := if size < maxSize then size * 8 else size
  if digits.getLastD 0#64 >>> 32 = 0#64 then size - 4 else size

/-- `ecma_bigint_create_from_digits`. -/
def ecmaBigintCreateFromDigits (ndebug : Bool) (allocates : Nat → Bool) (digits : List TwoDigits) (sign : Bool) :
    Res Block :=
  let digits := trim digits
  if digits = [] then .ok Block.zero
  else do
    let size := requestedSize digits
    ecmaBigintCreateBlock ndebug allocates size
    let written ← writeDigits (getByteSize size / 4) digits
    .ok ⟨sign, written.take (size / 4)⟩

/-- `ecma_bigint_get_size_in_digits`. -/
def ecmaBigintGetSizeInDigits (value : Block) : Nat :=
  if value.digits = [] then 0 else (4 * value.digits.length + 4) / 8

/-- The loop that puts two digits together, and the digits that are left. -/
def readDigits : Nat → List Digit → Res (List TwoDigits × List Digit)
  | 0, source => .ok ([], source)
  | n + 1, low :: high :: source => do
    let (digits, source) ← readDigits n source
    .ok ((low.setWidth 64 ||| high.setWidth 64 <<< 32) :: digits, source)
  | _, _ => .error .assertion

/-- `ecma_bigint_get_digits_and_sign`, for a buffer of `size` digits. -/
def ecmaBigintGetDigitsAndSign (value : Block) (size : Nat) : Res (List TwoDigits × Bool) :=
  if value.digits = [] then .ok (List.replicate size 0#64, false)
  else do
    let copySize := 4 * value.digits.length / 8
    let copySize := if size < copySize then size else copySize
    let (digits, source) ← readDigits copySize value.digits
    let size := size - copySize
    if size = 0 then .ok (digits, value.sign)
    else if value.digits.length % 2 = 1 then
      match source with
      | [] => .error .assertion
      | digit :: _ => .ok (digits ++ digit.setWidth 64 :: List.replicate (size - 1) 0#64, value.sign)
    else .ok (digits ++ List.replicate size 0#64, value.sign)

/-- The result of `ecma_bigint_create_from_digits` is the number, and all its digits can be read back; or the memory
error is raised. -/
def CopiesDigits (ndebug : Bool) (allocates : Nat → Bool) (digits : List TwoDigits) (sign : Bool) : Prop :=
  match ecmaBigintCreateFromDigits ndebug allocates digits sign with
  | .error e => e = .null
  | .ok value =>
    value.Normalised ∧ value.toInt = (if sign then -(val digits : Int) else val digits) ∧
      ecmaBigintGetSizeInDigits value = (trim digits).length ∧
      ∀ k, ∃ buffer, ecmaBigintGetDigitsAndSign value k = .ok (buffer, value.sign) ∧ buffer.length = k ∧
        val buffer = val digits % (2 ^ 64) ^ k

/-! ## Two digits in one -/

theorem toNat_lowHalf (d : TwoDigits) : (d.setWidth 32 : Digit).toNat = d.toNat % 2 ^ 32 := BitVec.toNat_setWidth ..

theorem toNat_highHalf (d : TwoDigits) : ((d >>> 32).setWidth 32 : Digit).toNat = d.toNat / 2 ^ 32 := by
  have hlt := d.isLt
  rw [BitVec.toNat_setWidth, BitVec.toNat_ushiftRight, Nat.shiftRight_eq_div_pow]
  exact Nat.mod_eq_of_lt (by omega)

theorem toNat_twoDigits (low high : Digit) :
    (low.setWidth 64 ||| high.setWidth 64 <<< 32 : TwoDigits).toNat = low.toNat + 2 ^ 32 * high.toNat := by
  have hlow := low.isLt
  have hhigh := high.isLt
  rw [BitVec.toNat_or, BitVec.toNat_shiftLeft, BitVec.toNat_setWidth, BitVec.toNat_setWidth, Nat.shiftLeft_eq,
    Nat.mod_eq_of_lt (by omega), Nat.mod_eq_of_lt (by omega), Nat.mod_eq_of_lt (by omega), Nat.or_comm, Nat.mul_comm,
    ← Nat.two_pow_add_eq_or_of_lt hlow, Nat.add_comm]

theorem weight_wide (n : Nat) : (2 ^ 64) ^ n = (2 ^ 32) ^ (2 * n) := by
  rw [pow_mul, ← pow_mul 2 32 2]

theorem writeDigits_ok (room : Nat) (digits : List TwoDigits) (h : 2 * digits.length ≤ room) :
    ∃ result, writeDigits room digits = .ok result ∧ result.length = 2 * digits.length ∧ val result = val digits := by
  induction digits generalizing room with
  | nil => exact ⟨[], rfl, rfl, rfl⟩
  | cons d ds ih =>
    rw [List.length_cons] at h ⊢
    obtain ⟨result, hresult, hlen, hval⟩ := ih (room - 2) (by omega)
    refine ⟨d.setWidth 32 :: (d >>> 32).setWidth 32 :: result, ?_, ?_, ?_⟩
    · rw [writeDigits, jjsAssert_ok (by omega), ok_bind, hresult, ok_bind]
    · rw [List.length_cons, List.length_cons, hlen]
      omega
    · rw [val_cons, val_cons, val_cons, toNat_lowHalf, toNat_highHalf, hval]
      omega

theorem writeDigits_outside (room : Nat) (digits : List TwoDigits) (h : room < 2 * digits.length) :
    writeDigits room digits = .error .assertion := by
  induction digits generalizing room with
  | nil => cases h
  | cons d ds ih =>
    rw [List.length_cons] at h
    rw [writeDigits]
    by_cases hroom : 2 ≤ room
    · rw [jjsAssert_ok hroom, ok_bind, ih (room - 2) (by omega), error_bind]
    · rw [jjsAssert, if_neg hroom, error_bind]

theorem readDigits_eq (n : Nat) (source : List Digit) (h : 2 * n ≤ source.length) :
    ∃ digits, readDigits n source = .ok (digits, source.drop (2 * n)) ∧ digits.length = n ∧
      val digits = val (source.take (2 * n)) := by
  induction n generalizing source with
  | zero => exact ⟨[], rfl, rfl, rfl⟩
  | succ n ih =>
    cases source with
    | nil => cases h
    | cons low source =>
      cases source with
      | nil =>
        rw [List.length_singleton] at h
        omega
      | cons high source =>
        rw [List.length_cons, List.length_cons] at h
        obtain ⟨digits, hdigits, hlen, hval⟩ := ih source (by omega)
        have hdouble : 2 * (n + 1) = 2 * n + 1 + 1 := by omega
        refine ⟨(low.setWidth 64 ||| high.setWidth 64 <<< 32) :: digits, ?_, ?_, ?_⟩
        · rw [readDigits, hdigits, ok_bind, hdouble]
          rfl
        · rw [List.length_cons, hlen]
        · rw [hdouble, List.take_succ_cons, List.take_succ_cons, val_cons, val_cons, val_cons, toNat_twoDigits, hval]
          omega

/-! ## Reading -/

theorem ecmaBigintGetSizeInDigits_eq (value : Block) :
    ecmaBigintGetSizeInDigits value = (value.digits.length + 1) / 2 := by
  rw [ecmaBigintGetSizeInDigits]
  split
  · rename_i h
    rw [h]
    rfl
  · omega

/-- A buffer of any size gets the low digits of the magnitude, and zeros above them. -/
theorem ecmaBigintGetDigitsAndSign_eq (value : Block) (hzero : value.digits = [] → value.sign = false) (k : Nat) :
    ∃ buffer, ecmaBigintGetDigitsAndSign value k = .ok (buffer, value.sign) ∧ buffer.length = k ∧
      val buffer = val value.digits % (2 ^ 64) ^ k := by
  rw [ecmaBigintGetDigitsAndSign]
  by_cases hnil : value.digits = []
  · refine ⟨List.replicate k 0#64, ?_, ?_, ?_⟩
    · rw [if_pos hnil, hzero hnil]
    · exact List.length_replicate
    · rw [hnil, val_replicate_zero, val_nil, Nat.zero_mod]
  · have hcount : 4 * value.digits.length / 8 = value.digits.length / 2 := by omega
    simp only [if_neg hnil, hcount]
    by_cases hk : k ≤ value.digits.length / 2
    · -- the buffer is full before the digits are used up
      have hcopy : (if k < value.digits.length / 2 then k else value.digits.length / 2) = k := by
        split
        · rfl
        · omega
      obtain ⟨digits, hdigits, hlen, hval⟩ := readDigits_eq k value.digits (by omega)
      refine ⟨digits, ?_, hlen, ?_⟩
      · rw [hcopy, hdigits, ok_bind, Nat.sub_self, if_pos rfl]
      · rw [hval, val_take _ (by omega), weight_wide]
    · have hcopy : (if k < value.digits.length / 2 then k else value.digits.length / 2) =
          value.digits.length / 2 := if_neg (by omega)
      obtain ⟨digits, hdigits, hlen, hval⟩ := readDigits_eq (value.digits.length / 2) value.digits (by omega)
      have hfit : val value.digits % (2 ^ 64) ^ k = val value.digits := by
        rw [weight_wide]
        exact Nat.mod_eq_of_lt (Nat.lt_of_lt_of_le (val_lt _) (Nat.pow_le_pow_right (by decide) (by omega)))
      have hsplit := val_take_add_drop value.digits (k := 2 * (value.digits.length / 2)) (by omega)
      rw [hcopy, hdigits, ok_bind, if_neg (by omega), hfit]
      by_cases hodd : value.digits.length % 2 = 1
      · rw [if_pos hodd]
        cases hrest : value.digits.drop (2 * (value.digits.length / 2)) with
        | nil =>
          have hle := List.drop_eq_nil_iff.mp hrest
          omega
        | cons digit rest =>
          have hlenRest := congrArg List.length hrest
          rw [List.length_drop, List.length_cons] at hlenRest
          have hrestNil : rest = [] := List.length_eq_zero_iff.mp (by omega)
          refine ⟨_, rfl, ?_, ?_⟩
          · rw [List.length_append, List.length_cons, List.length_replicate, hlen]
            omega
          · rw [val_append, val_cons, val_replicate_zero, toNat_setWidth_digit, hlen, hval, weight_wide, ← hsplit, hrest,
              hrestNil, val_cons, val_nil, Nat.mul_zero, Nat.mul_zero]
      · rw [if_neg hodd]
        have hrest : value.digits.drop (2 * (value.digits.length / 2)) = [] :=
          List.drop_eq_nil_of_le (by omega)
        refine ⟨_, rfl, ?_, ?_⟩
        · rw [List.length_append, List.length_replicate, hlen]
          omega
        · rw [val_append, val_replicate_zero, hval, ← hsplit, hrest, val_nil, Nat.mul_zero, Nat.mul_zero]

/-! ## Writing -/

section

variable {ndebug : Bool} {allocates : Nat → Bool} {digits : List TwoDigits} {sign : Bool}

/-- The number of digits of the block for wide digits without leading zeros. -/
def usedDigits (digits : List TwoDigits) : Nat :=
  if digits.getLastD 0#64 >>> 32 = 0#64 then 2 * digits.length - 1 else 2 * digits.length

theorem highHalf_eq_zero_iff (d : TwoDigits) : d >>> 32 = 0#64 ↔ d.toNat < 2 ^ 32 := by
  rw [← BitVec.toNat_inj, BitVec.toNat_ushiftRight, Nat.shiftRight_eq_div_pow, BitVec.toNat_ofNat, Nat.zero_mod]
  constructor
  · intro h
    omega
  · intro h
    omega

theorem usedDigits_spec (ht : Trimmed digits) (hne : digits ≠ []) :
    (2 ^ 32) ^ (usedDigits digits - 1) ≤ val digits ∧ val digits < (2 ^ 32) ^ usedDigits digits := by
  obtain ⟨ds, d, rfl, hd⟩ := ht.exists_concat hne
  have hpos : 0 < d.toNat := by
    apply Nat.pos_of_ne_zero
    intro h0
    exact hd (BitVec.eq_of_toNat_eq h0)
  have hlow := val_lt ds
  have hlt := d.isLt
  have hlast : (ds ++ [d]).getLastD 0#64 = d := List.getLastD_concat
  rw [val_concat, usedDigits, hlast, List.length_append, List.length_singleton]
  rw [weight_wide] at hlow ⊢
  by_cases hhigh : d >>> 32 = 0#64
  · have hsmall := (highHalf_eq_zero_iff d).mp hhigh
    have hindex : 2 * (ds.length + 1) - 1 = 2 * ds.length + 1 := by omega
    rw [if_pos hhigh, hindex, Nat.add_sub_cancel, pow_succ]
    constructor
    · calc (2 ^ 32) ^ (2 * ds.length) ≤ (2 ^ 32) ^ (2 * ds.length) * d.toNat := Nat.le_mul_of_pos_right _ hpos
        _ ≤ val ds + (2 ^ 32) ^ (2 * ds.length) * d.toNat := Nat.le_add_left _ _
    · calc val ds + (2 ^ 32) ^ (2 * ds.length) * d.toNat
          < (2 ^ 32) ^ (2 * ds.length) + (2 ^ 32) ^ (2 * ds.length) * d.toNat := Nat.add_lt_add_right hlow _
        _ = (2 ^ 32) ^ (2 * ds.length) * (d.toNat + 1) := by rw [Nat.mul_succ, Nat.add_comm]
        _ ≤ (2 ^ 32) ^ (2 * ds.length) * 2 ^ 32 := Nat.mul_le_mul_left _ hsmall
  · have hlarge : 2 ^ 32 ≤ d.toNat := by
      apply Nat.le_of_not_lt
      intro h
      exact hhigh ((highHalf_eq_zero_iff d).mpr h)
    have hindex : 2 * (ds.length + 1) - 1 = 2 * ds.length + 1 := by omega
    have hdouble : 2 * (ds.length + 1) = 2 * ds.length + 2 := by omega
    rw [if_neg hhigh, hindex, hdouble, pow_succ, pow_add, ← pow_mul 2 32 2]
    constructor
    · calc (2 ^ 32) ^ (2 * ds.length) * 2 ^ 32 ≤ (2 ^ 32) ^ (2 * ds.length) * d.toNat :=
          Nat.mul_le_mul_left _ hlarge
        _ ≤ val ds + (2 ^ 32) ^ (2 * ds.length) * d.toNat := Nat.le_add_left _ _
    · calc val ds + (2 ^ 32) ^ (2 * ds.length) * d.toNat
          < (2 ^ 32) ^ (2 * ds.length) + (2 ^ 32) ^ (2 * ds.length) * d.toNat := Nat.add_lt_add_right hlow _
        _ = (2 ^ 32) ^ (2 * ds.length) * (d.toNat + 1) := by rw [Nat.mul_succ, Nat.add_comm]
        _ ≤ (2 ^ 32) ^ (2 * ds.length) * 2 ^ (32 * 2) := Nat.mul_le_mul_left _ hlt

/-- Fewer than 0x10000 digits: the size is the one in bytes, and the block has room for both halves of every digit. -/
theorem requestedSize_small (hne : digits ≠ []) (h : digits.length < maxSize) :
    requestedSize digits = 4 * usedDigits digits ∧ 0 < usedDigits digits ∧
      2 * digits.length ≤ getByteSize (requestedSize digits) / 4 ∧ (usedDigits digits + 1) / 2 = digits.length := by
  have hpos := List.length_pos_iff.mpr hne
  have hsize : requestedSize digits = 4 * usedDigits digits := by
    have hlt : digits.length < 2 ^ 32 := Nat.lt_trans h (by decide)
    rw [requestedSize, usedDigits, Nat.mod_eq_of_lt hlt]
    simp only [if_pos h]
    split
    · omega
    · omega
  rw [hsize, getByteSize, usedDigits]
  split
  · omega
  · omega

/-- A block for the number with the digits, when it is not refused. -/
theorem createFromDigits_small (hne : digits ≠ []) (h : digits.length < maxSize) :
    ecmaBigintCreateBlock ndebug allocates (requestedSize digits) = .error .null ∨
      ecmaBigintCreateBlock ndebug allocates (requestedSize digits) = .ok () ∧ 4 * usedDigits digits ≤ maxSize := by
  obtain ⟨hsize, hpos, _, _⟩ := requestedSize_small hne h
  rw [hsize, ecmaBigintCreateBlock, if_neg (by omega)]
  split
  · exact Or.inl rfl
  · rename_i hmax
    split
    · exact Or.inl rfl
    · exact Or.inr ⟨rfl, Nat.le_of_not_lt hmax⟩

/-- What is written, without the unused half of the last digit, is the number. -/
theorem written_spec (hne : digits ≠ []) (ht : Trimmed digits) (h : digits.length < maxSize) :
    ∃ written, writeDigits (getByteSize (requestedSize digits) / 4) digits = .ok written ∧
      (written.take (requestedSize digits / 4)).length = usedDigits digits ∧
      val (written.take (requestedSize digits / 4)) = val digits ∧
      Trimmed (written.take (requestedSize digits / 4)) := by
  obtain ⟨hsize, hpos, hroom, hhalf⟩ := requestedSize_small hne h
  obtain ⟨hlow, hhigh⟩ := usedDigits_spec ht hne
  obtain ⟨written, hwritten, hlen, hval⟩ := writeDigits_ok _ digits hroom
  have hquarter : requestedSize digits / 4 = usedDigits digits := by omega
  have hle : usedDigits digits ≤ written.length := by omega
  have htake : (written.take (usedDigits digits)).length = usedDigits digits := by
    rw [List.length_take, Nat.min_eq_left hle]
  have hvalue : val (written.take (usedDigits digits)) = val digits := by
    rw [val_take _ hle, hval, Nat.mod_eq_of_lt hhigh]
  refine ⟨written, hwritten, ?_⟩
  rw [hquarter]
  refine ⟨htake, hvalue, trimmed_of_pow_le ?_⟩
  rw [htake, hvalue]
  exact hlow

theorem copiesDigits_small (h : (trim digits).length < maxSize) : CopiesDigits ndebug allocates digits sign := by
  have ht := trimmed_trim digits
  rw [CopiesDigits, ecmaBigintCreateFromDigits]
  by_cases hnil : trim digits = []
  · have hval : val digits = 0 := by rw [← val_trim, hnil, val_nil]
    simp only [if_pos hnil]
    refine ⟨⟨trimmed_nil, fun _ => rfl, Nat.zero_le _⟩, ?_, ?_, ?_⟩
    · rw [hval]
      cases sign with
      | true => rfl
      | false => rfl
    · rw [hnil]
      rfl
    · intro k
      obtain ⟨buffer, hbuffer, hlen, hbuf⟩ := ecmaBigintGetDigitsAndSign_eq Block.zero (fun _ => rfl) k
      refine ⟨buffer, hbuffer, hlen, ?_⟩
      rw [hbuf, hval]
      rfl
  · simp only [if_neg hnil]
    cases createFromDigits_small hnil h with
    | inl hnull =>
      rw [hnull]
      exact rfl
    | inr hok =>
      obtain ⟨written, hwritten, hlen, hval, htrim⟩ := written_spec hnil ht h
      obtain ⟨_, hpos, _, hhalf⟩ := requestedSize_small hnil h
      rw [hok.1, ok_bind, hwritten, ok_bind]
      have hne : written.take (requestedSize (trim digits) / 4) ≠ [] := by
        rw [← List.length_pos_iff, hlen]
        exact hpos
      refine ⟨⟨htrim, fun h0 => absurd h0 hne, ?_⟩, ?_, ?_, ?_⟩
      · rw [hlen]
        exact hok.2
      · rw [Block.toInt, hval, val_trim]
      · rw [ecmaBigintGetSizeInDigits_eq, hlen, hhalf]
      · intro k
        obtain ⟨buffer, hbuffer, hlenBuf, hbuf⟩ := ecmaBigintGetDigitsAndSign_eq
          ⟨sign, written.take (requestedSize (trim digits) / 4)⟩ (fun h0 => absurd h0 hne) k
        refine ⟨buffer, hbuffer, hlenBuf, ?_⟩
        rw [hbuf, hval, val_trim]

/-- What stands for the size in bytes when there are 0x10000 digits or more. -/
def mistakenSize (digits : List TwoDigits) : Nat :=
  if digits.getLastD 0#64 >>> 32 = 0#64 then digits.length - 4 else digits.length

theorem requestedSize_large (hlt : digits.length < 2 ^ 32) (h : maxSize ≤ digits.length) :
    requestedSize digits = mistakenSize digits := by
  rw [requestedSize, Nat.mod_eq_of_lt hlt, if_neg (Nat.not_lt.mpr h), mistakenSize]

/-- The size is refused: with assertions it is a multiple of the size of a digit, and it is over the limit or there is
no room for the block. -/
def Refused (ndebug : Bool) (allocates : Nat → Bool) (size : Nat) : Prop :=
  (ndebug = true ∨ size % 4 = 0) ∧ (maxSize < size ∨ allocates (getByteSize size + 8) = false)

theorem ecmaBigintCreateBlock_null_iff {size : Nat} (hpos : 0 < size) :
    ecmaBigintCreateBlock ndebug allocates size = .error .null ↔ Refused ndebug allocates size := by
  rw [ecmaBigintCreateBlock, Refused]
  constructor
  · intro h
    split at h
    · cases h
    · rename_i hassert
      have halign : ndebug = true ∨ size % 4 = 0 := by
        cases hn : ndebug with
        | true => exact Or.inl rfl
        | false =>
          refine Or.inr ?_
          by_contra hmod
          exact hassert ⟨hn, fun hsize => hmod hsize.2⟩
      refine ⟨halign, ?_⟩
      split at h
      · rename_i hmax
        exact Or.inl hmax
      · split at h
        · rename_i hroom
          exact Or.inr hroom
        · cases h
  · intro h
    have hassert : ¬(ndebug = false ∧ ¬(0 < size ∧ size % 4 = 0)) := by
      intro hfail
      cases h.1 with
      | inl hn => exact Bool.false_ne_true (hfail.1.symm.trans hn)
      | inr hmod => exact hfail.2 ⟨hpos, hmod⟩
    rw [if_neg hassert]
    split
    · rfl
    · rename_i hmax
      rw [if_pos (h.2.resolve_left hmax)]

/-- The block that is requested for 0x10000 digits or more cannot hold them. -/
theorem copiesDigits_large (hlt : digits.length < 2 ^ 32) (h : maxSize ≤ (trim digits).length) :
    CopiesDigits ndebug allocates digits sign ↔ Refused ndebug allocates (mistakenSize (trim digits)) := by
  have hmax : maxSize = 65536 := rfl
  have hle := trim_length_le digits
  have hnil : trim digits ≠ [] := by
    rw [← List.length_pos_iff]
    omega
  have hpos : 0 < mistakenSize (trim digits) := by
    rw [mistakenSize]
    split
    · omega
    · omega
  rw [CopiesDigits, ecmaBigintCreateFromDigits]
  simp only [if_neg hnil, requestedSize_large (Nat.lt_of_le_of_lt hle hlt) h]
  rw [← ecmaBigintCreateBlock_null_iff hpos]
  cases hcreate : ecmaBigintCreateBlock ndebug allocates (mistakenSize (trim digits)) with
  | error e =>
    rw [error_bind]
    exact ⟨fun he => congrArg Except.error he, fun he => Except.error.inj he⟩
  | ok u =>
    have hroom : mistakenSize (trim digits) ≤ maxSize := by
      rw [ecmaBigintCreateBlock] at hcreate
      split at hcreate
      · cases hcreate
      · split at hcreate
        · cases hcreate
        · rename_i hsize
          exact Nat.le_of_not_lt hsize
    have houtside : writeDigits (getByteSize (mistakenSize (trim digits)) / 4) (trim digits) = .error .assertion := by
      apply writeDigits_outside
      rw [getByteSize]
      omega
    rw [ok_bind, houtside, error_bind]
    constructor
    · intro he
      cases he
    · intro he
      cases he

/-- Digits are copied if and only if there are fewer than 0x10000 of them without leading zeros, or the block is
refused. -/
theorem copiesDigits_iff (hlt : digits.length < 2 ^ 32) :
    CopiesDigits ndebug allocates digits sign ↔
      (trim digits).length < maxSize ∨ Refused ndebug allocates (mistakenSize (trim digits)) := by
  cases Nat.lt_or_ge (trim digits).length maxSize with
  | inl hsmall => exact iff_of_true (copiesDigits_small hsmall) (Or.inl hsmall)
  | inr hlarge =>
    rw [copiesDigits_large hlt hlarge]
    constructor
    · intro h
      exact Or.inr h
    · intro h
      exact h.resolve_left (Nat.not_lt.mpr hlarge)

end

theorem one_digit_copied : CopiesDigits false (fun _ => true) [7#64] true :=
  (copiesDigits_iff (by decide)).mpr (Or.inl (by decide))

/-- A block of 0x10000 bytes is requested for 0x10000 digits of eight bytes. -/
theorem many_digits_outside : ¬CopiesDigits false (fun _ => true) (List.replicate 65536 (BitVec.allOnes 64)) false := by
  have hsplit : List.replicate 65536 (BitVec.allOnes 64) =
      List.replicate 65535 (BitVec.allOnes 64) ++ [BitVec.allOnes 64] := List.replicate_succ'
  have hlast : (List.replicate 65536 (BitVec.allOnes 64)).getLastD 0#64 = BitVec.allOnes 64 := by
    rw [hsplit]
    exact List.getLastD_concat
  have htrim : trim (List.replicate 65536 (BitVec.allOnes 64)) = List.replicate 65536 (BitVec.allOnes 64) := by
    rw [hsplit, trim_concat, if_neg (by decide)]
  have hlen : (List.replicate 65536 (BitVec.allOnes 64)).length = 65536 := List.length_replicate
  have hsize : mistakenSize (List.replicate 65536 (BitVec.allOnes 64)) = 65536 := by
    rw [mistakenSize, hlast, hlen, if_neg (by decide)]
  rw [copiesDigits_large (by rw [hlen]; decide) (by rw [htrim, hlen]; decide), htrim, hsize, Refused]
  decide

end BigInt
end JJS
